/-
# Fred.Xdrpp.Session -- calls over a connection

A client that calls (`invoke` of `xdrpp/srpc.h`), a connection, and the server at its other end
(`rpc_tcp_listener_common::receive_cb`): `Fred.Xdrpp.Rpc` on top of `Fred.Xdrpp.MsgSock` and
`Fred.Xdrpp.WriteQueue`. The client has one call outstanding at a time. The handler also works for other
clients, and for threads of its own.

However the bytes are cut up and delayed, and wherever the connection breaks: each call runs its procedure at
most once, in the order of the calls, and what a call returns is what its procedure returned when it ran. Of
the assertions the one in `write_message` can fail, when a `write` takes a part of a call (`calls_answered`).
-/
import Fred.Xdrpp.Connection
import Fred.Xdrpp.Rpc

namespace Fred.Xdrpp

open Fred.Framing Fred.Transition Fred.Xdr

variable {σ : Type} {S : Service σ}

/-! ## Client, connection and server -/

/-- A call as it is marshaled: the procedure, the argument and the number `prepare_call` takes from a counter
that all clients of the process share. -/
structure Call (S : Service σ) where
  proc : ℕ
  procedure : Procedure σ
  arg : procedure.Arg
  xid : ℕ
  procs_eq : S.procs proc = some procedure
  fits : procedure.arg.Fits arg
  xid_lt : xid < 2 ^ 32
  /-- The assertion of `message_t::alloc`. -/
  size_lt : (callMsg xid S.prog S.vers proc procedure.arg arg).length < 2 ^ 31

def Call.message (c : Call S) : List UInt8 :=
  callMsg c.xid S.prog S.vers c.proc c.procedure.arg c.arg

/-- What a call has returned. -/
structure Answer (S : Service σ) where
  call : Call S
  result : call.procedure.Res

/-- What a call returns that is handled in state `s`. -/
def Call.answer (c : Call S) (s : σ) : Answer S := ⟨c, (c.procedure.run c.arg s).1⟩

/-- A message was handled, between these states of the handler. -/
structure Execution (σ : Type) where
  message : List UInt8
  before : σ
  after : σ
  reply : Option (List UInt8)

/-- The reply, if there is one. -/
def Served.reply? : Served → Option (List UInt8)
  | .replied m => some m
  | _ => none

/-- The message has the server close the connection: `recv_msg`, and the constructor of `xdr_get`. -/
def closes (m : List UInt8) : Bool :=
  if m.length < 8 then true
  else
    match getWord (m.drop 4) with
    | .ok (0, _) => m.length % 4 ≠ 0
    | .ok (1, _) => false
    | _ => true

/-- The callback is `receive_cb`, which deletes the socket when it closes the connection. -/
def serverOptions (maxmsglen : ℕ) : Options where
  maxmsglen := maxmsglen
  deletes received :=
    match received.getLast? with
    | none => false
    | some (.message m) => closes m
    | some (.nothing _) => true

structure Session (S : Service σ) where
  /-- The calls made so far. All but the last have returned. -/
  calls : List (Call S)
  returned : List (Answer S)
  /-- A call has thrown; the client gives up the connection. -/
  broken : Bool
  /-- Bytes on their way to the server. -/
  toServer : List UInt8
  sock : MsgSock
  queue : WriteQueue
  /-- Bytes the server has sent and the client has not read. -/
  toClient : List UInt8
  handler : σ
  /-- What the handler has done for this connection. -/
  log : List (Execution σ)

/-- What the `write` of `write_message` does. -/
inductive CallWrite where
  | takes (n : ℕ)
  | failed
  deriving DecidableEq, Repr

inductive SessionEvent (S : Service σ) where
  | call (c : Call S) (r : CallWrite)
  | carry (n : ℕ)
  /-- The server's poll set finds the socket readable; `writes` is what the replies meet. -/
  | readable (attempts : List Attempt) (writes : List Writev)
  | writable (r : Writev)
  /-- The client reads; if a reply is not complete, it waits, unless the connection has come to an end. -/
  | receive (ended : Bool)
  /-- A client that has given up the connection closes it. -/
  | hangup
  /-- The handler does something else. -/
  | elsewhere (s : σ)

inductive SessionError where
  /-- An assertion of the server's `pop_wbytes`. -/
  | pop (e : PopError)
  /-- The assertion of `write_message`: all of the message was written. -/
  | shortWrite
  deriving DecidableEq, Repr

/-- The `write` for a call takes a part of it. -/
def SessionEvent.Short : SessionEvent S → Prop
  | .call c (.takes n) => n < (rawMessage c.message).length
  | _ => False

namespace Session

def init (S : Service σ) (s : σ) : Session S := ⟨[], [], false, [], .init, .init, [], s, []⟩

def write (e : WriteEvent) (t : Session S) : Except PopError (Session S) :=
  match t.queue.step e with
  | .error e => .error e
  | .ok q => .ok { t with queue := q, toClient := t.toClient ++ q.sent.drop t.queue.sent.length }

/-- The callback on a message. -/
def serve (m : List UInt8) (r : Writev) (t : Session S) : Except PopError (Session S) :=
  let served := S.receive m t.handler
  let t := { t with handler := served.2, log := t.log ++ [⟨m, t.handler, served.2, served.1.reply?⟩] }
  match served.1.reply? with
  | some reply => t.write (.putmsg reply r)
  | none => .ok t

def serveAll : List (List UInt8) → List Writev → Session S → Except PopError (Session S)
  | [], _, t => .ok t
  | m :: ms, writes, t =>
    match t.serve m (writes.headD .again) with
    | .error e => .error e
    | .ok t => serveAll ms writes.tail t

/-- What the server's socket does; it does not fail. -/
def sockStep (maxmsglen : ℕ) (e : SockEvent) (t : Session S) : Session S :=
  match t.sock.step (serverOptions maxmsglen) e with
  | .ok s => { t with sock := s }

/-- `invoke` up to the call of `write_message`, which throws if nothing can be written. -/
def makeCall (c : Call S) (r : CallWrite) (t : Session S) : Except SessionError (Session S) :=
  match r with
  | .failed => .ok { t with broken := true }
  | .takes n =>
    if n < (rawMessage c.message).length then .error .shortWrite
    else .ok { t with calls := t.calls ++ [c], toServer := t.toServer ++ rawMessage c.message }

/-- `invoke` from the call of `read_message` on. -/
def receive (ended : Bool) (c : Call S) (t : Session S) : Session S :=
  match readMessage false t.toClient with
  | .ok (m, rest) =>
    match readReply c.xid c.procedure.res m with
    | .ok b => { t with returned := t.returned ++ [⟨c, b⟩], toClient := rest }
    | .error _ => { t with broken := true }
  | .error e =>
    if e = .badMessageSize "read_message: premature EOF" ∧ ended = false then t
    else { t with broken := true }

def step (maxmsglen : ℕ) (e : SessionEvent S) (t : Session S) : Except SessionError (Session S) :=
  match e with
  | .call c r =>
    if t.broken ∨ t.calls.length ≠ t.returned.length then .ok t else t.makeCall c r
  | .carry n =>
    .ok ({ t with toServer := t.toServer.drop n }.sockStep maxmsglen (.arrive (t.toServer.take n)))
  | .readable attempts writes =>
    let t' := t.sockStep maxmsglen (.readable attempts)
    -- the messages handed on by this call of `input`
    (t'.serveAll (t'.sock.messages.drop t.sock.messages.length) writes).mapError .pop
  | .writable r => if t.sock.destroyed then .ok t else (t.write (.writable r)).mapError .pop
  | .receive ended =>
    .ok (if t.broken then t
      else
        match t.calls.drop t.returned.length with
        | [] => t
        | c :: _ => t.receive ended c)
  | .hangup => .ok (if t.broken ∧ t.toServer = [] then t.sockStep maxmsglen .close else t)
  | .elsewhere s => .ok { t with handler := s }

end Session

theorem serve_ne_closed (P : Procedure σ) (xid : ℕ) (rest : List UInt8) (s : σ) :
    (P.serve xid rest s).1 ≠ .closed := by
  unfold Procedure.serve
  split
  · exact nofun
  · split_ifs <;> exact nofun

theorem dispatch_closed_iff (m : List UInt8) (s : σ) :
    (S.dispatch m s).1 = .closed ↔ m.length % 4 ≠ 0 := by
  unfold Service.dispatch
  by_cases hsize : m.length % 4 = 0
  · refine iff_of_false ?_ (by simp [hsize])
    rw [if_neg (by simp [hsize])]
    split
    · exact nofun
    · exact nofun
    · split_ifs
      · exact nofun
      · exact nofun
      · exact nofun
      · split
        · exact nofun
        · exact serve_ne_closed _ _ _ _
  · simp [hsize]

/-- The socket is deleted when a message is answered by closing the connection. -/
theorem closes_iff (m : List UInt8) (s : σ) : closes m = true ↔ (S.receive m s).1 = .closed := by
  unfold closes Service.receive
  by_cases hshort : m.length < 8
  · simp [hshort]
  rw [if_neg hshort, if_neg hshort]
  cases getWord (m.drop 4) with
  | error e => simp
  | ok word =>
      -- The message type is the second word: a call, a reply or neither.
      obtain ⟨mtype, rest⟩ := word
      match mtype with
      | 0 => simp [dispatch_closed_iff]
      | 1 => simp
      | _ + 2 => simp

/-! ## Streams of messages -/

/-- A reader of messages that were put in finds the first of them, up to one that is too long. -/
theorem delivered_rawMessages (O : Options) {ms : List (List UInt8)} (h : ∀ m ∈ ms, m.length < 2 ^ 31) :
    ((format O).feedAll (.header []) (ms.flatMap rawMessage)).2 <+: ms := by
  induction ms with
  | nil => exact List.prefix_rfl
  | cons m ms ih =>
      have hm := h m List.mem_cons_self
      rw [List.flatMap_cons, (format O).feedAll_append]
      by_cases hmax : m.length ≤ O.maxmsglen
      · rw [(format O).feedAll_frame (isFrame_rawMessage hmax hm)]
        exact (List.prefix_cons_inj m).mpr (ih fun x hx => h x (List.mem_cons_of_mem m hx))
      · have hsize : (format O).size (BigEndian.bytes 4 (m.length + 2 ^ 31)) = .error .tooBig := by
          simp only [format]
          rw [value_header hm, if_neg (by omega), Nat.add_mod_right, Nat.mod_eq_of_lt hm, if_neg hmax]
        have hwidth : (BigEndian.bytes 4 (m.length + 2 ^ 31)).length = (format O).width :=
          BigEndian.length_bytes _ _
        have hrefused : (format O).feedAll (.header []) (rawMessage m) = (.refused .tooBig, []) := by
          unfold rawMessage
          exact (format O).feedAll_refused_header hwidth hsize m
        rw [hrefused, (format O).feedAll_refused]
        exact List.nil_prefix

/-- The first message of a stream is the one it begins with. -/
theorem rawMessage_inj {m m' xs ys : List UInt8} (hm : m.length < 2 ^ 31) (hm' : m'.length < 2 ^ 31)
    (h : rawMessage m ++ xs = rawMessage m' ++ ys) : m = m' ∧ xs = ys := by
  obtain ⟨htake, hdrop⟩ := take_drop_rawMessage m xs
  obtain ⟨htake', hdrop'⟩ := take_drop_rawMessage m' ys
  have hlen : m.length = m'.length := by
    have hvalue := congrArg BigEndian.value (htake.symm.trans ((congrArg (List.take 4) h).trans htake'))
    rw [value_header hm, value_header hm'] at hvalue
    omega
  exact List.append_inj (hdrop.symm.trans ((congrArg (List.drop 4) h).trans hdrop')) hlen

/-! ## Lists that grow at their end -/

theorem getElem?_of_snoc {α : Type*} {l : List α} {a b : α} {i : ℕ} (h : (l ++ [a])[i]? = some b) :
    l[i]? = some b ∨ i = l.length ∧ b = a := by
  by_cases hi : i < l.length
  · exact .inl ((List.getElem?_append_left hi).symm.trans h)
  · obtain ⟨hlt, -⟩ := List.getElem?_eq_some_iff.mp h
    rw [List.length_append, List.length_singleton] at hlt
    obtain rfl : i = l.length := by omega
    exact .inr ⟨rfl, Option.some.inj (h.symm.trans List.getElem?_concat_length)⟩

theorem getElem?_append_of_some {α : Type*} {l r : List α} {a : α} {i : ℕ} (h : l[i]? = some a) :
    (l ++ r)[i]? = some a :=
  (List.getElem?_append_left (List.getElem?_eq_some_iff.mp h).1).trans h

/-! ## The invariant -/

/-- In the states that meet `I` the procedures return what can be marshaled, and keep `I`. -/
structure Service.Marshals (S : Service σ) (I : σ → Prop) : Prop where
  fits : ∀ {proc P a s}, S.procs proc = some P → P.arg.Fits a → I s → P.res.Fits (P.run a s).1
  size_lt : ∀ {proc P a s}, S.procs proc = some P → P.arg.Fits a → I s →
    (P.res.put (P.run a s).1).length + 24 < 2 ^ 31
  keeps : ∀ {proc P a s}, S.procs proc = some P → P.arg.Fits a → I s → I (P.run a s).2

/-- The reply to a call that is handled in state `s`. -/
def Call.reply (c : Call S) (s : σ) : List UInt8 :=
  Rpc.successHdr c.xid ++ c.procedure.res.put (c.answer s).result

/-- A call comes as its message, and is answered by its procedure. -/
theorem receive_message (c : Call S) (s : σ) :
    S.receive c.message s = (.replied (c.reply s), (c.procedure.run c.arg s).2) :=
  receive_callMsg c.procs_eq c.xid_lt c.fits

theorem length_reply_lt {I : σ → Prop} (hS : S.Marshals I) (c : Call S) {s : σ} (hs : I s) :
    (c.reply s).length < 2 ^ 31 := by
  have hlen : (Rpc.successHdr c.xid).length = 24 := rfl
  have hlt := hS.size_lt c.procs_eq c.fits hs
  unfold Call.reply
  rw [List.length_append, hlen]
  show 24 + (c.procedure.res.put (c.procedure.run c.arg s).1).length < 2 ^ 31
  omega

/-- The reply is decoded to the result of the procedure. -/
theorem readReply_reply {I : σ → Prop} (hS : S.Marshals I) (c : Call S) {s : σ} (hs : I s) :
    readReply c.xid c.procedure.res (c.reply s) = .ok (c.answer s).result := by
  have hreply := readReply_success c.xid_lt (hS.fits c.procs_eq c.fits hs) c.xid
  rwa [if_pos rfl] at hreply

/-- The message was that of the call, and was handled and answered as that call. -/
structure Call.HandledBy (I : σ → Prop) (c : Call S) (e : Execution σ) : Prop where
  message_eq : e.message = c.message
  after_eq : e.after = (c.procedure.run c.arg e.before).2
  reply_eq : e.reply = some (c.reply e.before)
  before : I e.before

namespace Session

/-- The replies to the messages handled. -/
def replies (l : List (Execution σ)) : List (List UInt8) := l.filterMap Execution.reply

theorem replies_take_append_drop (n : ℕ) (l : List (Execution σ)) :
    replies (l.take n) ++ replies (l.drop n) = replies l := by
  unfold replies
  rw [← List.filterMap_append, List.take_append_drop]

end Session

open Session

/-- Streams, queues and log agree, while the messages `ms` are handed on but not handled yet. -/
structure SessionInv (I : σ → Prop) (maxmsglen : ℕ) (ms : List (List UInt8)) (t : Session S) : Prop where
  sock : Inv (serverOptions maxmsglen) t.sock
  queue : WriteInv t.queue
  handler : I t.handler
  stream_eq : t.calls.flatMap (fun c => rawMessage c.message) =
    t.sock.taken ++ t.sock.inbox ++ t.toServer
  closed_eq : t.sock.closed = true → t.toServer = [] ∧ t.broken = true
  messages_eq : t.sock.messages = t.log.map Execution.message ++ ms
  handled : ∀ (i : ℕ) (e : Execution σ), t.log[i]? = some e →
    ∃ c : Call S, t.calls[i]? = some c ∧ c.HandledBy I e
  accepted_prefix : t.queue.accepted <+: replies t.log
  accepted_eq : t.queue.wfail = false → t.queue.accepted = replies t.log
  sent_eq : t.queue.sent = (replies (t.log.take t.returned.length)).flatMap rawMessage ++ t.toClient
  returned_le : t.returned.length ≤ t.log.length
  returned_eq : ∀ (i : ℕ) (a : Answer S), t.returned[i]? = some a →
    ∃ (c : Call S) (e : Execution σ), t.calls[i]? = some c ∧ t.log[i]? = some e ∧ a = c.answer e.before
  returned_le_calls : t.returned.length ≤ t.calls.length
  calls_le : t.calls.length ≤ t.returned.length + 1

namespace SessionInv

variable {I : σ → Prop} {maxmsglen : ℕ} {ms : List (List UInt8)} {t t' : Session S}

theorem init {s : σ} (hs : I s) : SessionInv I maxmsglen [] (Session.init S s) where
  sock := Inv.init _
  queue := WriteInv.init
  handler := hs
  stream_eq := rfl
  closed_eq := nofun
  messages_eq := rfl
  handled := nofun
  accepted_prefix := List.prefix_rfl
  accepted_eq := fun _ => rfl
  sent_eq := rfl
  returned_le := Nat.le_refl 0
  returned_eq := nofun
  returned_le_calls := Nat.le_refl 0
  calls_le := Nat.zero_le 1

/-- The messages handed on are those of the calls. -/
theorem messages_prefix (J : SessionInv I maxmsglen ms t) :
    t.sock.messages <+: t.calls.map Call.message := by
  have hread := J.sock.messages_prefix
  have hbytes : t.sock.taken <+: (t.calls.map Call.message).flatMap rawMessage := by
    rw [List.flatMap_map, J.stream_eq, List.append_assoc]
    exact List.prefix_append _ _
  refine hread.trans (((format _).delivered_mono _ hbytes).trans (delivered_rawMessages _ ?_))
  intro m hm
  obtain ⟨c, -, rfl⟩ := List.mem_map.mp hm
  exact c.size_lt

/-- The next message to handle is that of the next call. -/
theorem next_call {m : List UInt8} (J : SessionInv I maxmsglen (m :: ms) t) :
    ∃ c : Call S, t.calls[t.log.length]? = some c ∧ m = c.message := by
  obtain ⟨rest, hrest⟩ := J.messages_prefix
  rw [J.messages_eq, List.append_assoc] at hrest
  have hget : (t.calls.map Call.message)[t.log.length]? = some m := by
    rw [← hrest, List.getElem?_append_right (by rw [List.length_map]), List.length_map, Nat.sub_self]
    rfl
  rw [List.getElem?_map] at hget
  obtain ⟨c, hc, rfl⟩ := Option.map_eq_some_iff.mp hget
  exact ⟨c, hc, rfl⟩

/-- A message that is replied to. -/
theorem serve_replied {m reply : List UInt8} {r : Writev} {s : σ} {q : WriteQueue}
    (hserved : S.receive m t.handler = (.replied reply, s)) (hq : t.queue.step (.putmsg reply r) = .ok q) :
    t.serve m r = .ok { t with
      handler := s
      log := t.log ++ [⟨m, t.handler, s, some reply⟩]
      queue := q
      toClient := t.toClient ++ q.sent.drop t.queue.sent.length } := by
  unfold Session.serve Session.write
  rw [hserved]
  simp only [Served.reply?, hq]

/-- **A message is handled.** The handler runs the procedure of its call, and the reply is queued. -/
theorem serve (hS : S.Marshals I) {m : List UInt8} (J : SessionInv I maxmsglen (m :: ms) t) (r : Writev) :
    ∃ t', t.serve m r = .ok t' ∧ SessionInv I maxmsglen ms t' ∧ t'.sock = t.sock := by
  obtain ⟨c, hc, rfl⟩ := J.next_call
  obtain ⟨q, hq, Q, ⟨more, hmore⟩, -⟩ := J.queue.step (.putmsg (c.reply t.handler) r)
  obtain ⟨haccepted, hfails⟩ := J.queue.step_accepted hq
  change q.accepted = t.queue.accepted ++ (if t.queue.wfail then [] else [c.reply t.handler]) at haccepted
  have hrun := serve_replied (receive_message c t.handler) hq
  refine ⟨_, hrun, ?_, rfl⟩
  have hreplies : ∀ e : Execution σ, replies (t.log ++ [e]) = replies t.log ++ e.reply.toList := by
    intro e
    unfold replies
    rw [List.filterMap_append]
    cases h : e.reply <;> simp [h]
  have hnew := hreplies ⟨c.message, t.handler, (c.procedure.run c.arg t.handler).2,
    some (c.reply t.handler)⟩
  refine {
    sock := J.sock
    queue := Q
    handler := hS.keeps c.procs_eq c.fits J.handler
    stream_eq := J.stream_eq
    closed_eq := J.closed_eq
    messages_eq := ?_
    handled := ?_
    accepted_prefix := ?_
    accepted_eq := ?_
    sent_eq := ?_
    returned_le := ?_
    returned_eq := ?_
    returned_le_calls := J.returned_le_calls
    calls_le := J.calls_le }
  · -- messages_eq
    show t.sock.messages = (t.log ++ [_]).map Execution.message ++ ms
    rw [J.messages_eq, List.map_append, List.append_assoc, List.map_singleton, List.singleton_append]
  · -- handled
    intro i e he
    obtain hold | ⟨rfl, rfl⟩ := getElem?_of_snoc he
    · exact J.handled i e hold
    · exact ⟨c, hc, rfl, rfl, rfl, J.handler⟩
  · -- accepted_prefix
    show q.accepted <+: replies (t.log ++ [_])
    rw [hnew, haccepted]
    split_ifs with hf
    · rw [List.append_nil]
      exact J.accepted_prefix.trans (List.prefix_append _ _)
    · rw [J.accepted_eq (Bool.not_eq_true _ ▸ hf)]
      exact List.prefix_rfl
  · -- accepted_eq
    intro hf
    have hf₀ : t.queue.wfail = false := Bool.eq_false_iff.mpr fun h => Bool.eq_false_iff.mp hf (hfails h)
    show q.accepted = replies (t.log ++ [_])
    rw [hnew, haccepted, J.accepted_eq hf₀, if_neg (by rw [hf₀]; exact Bool.false_ne_true)]
    rfl
  · -- sent_eq
    show q.sent = (replies ((t.log ++ [_]).take t.returned.length)).flatMap rawMessage ++ (t.toClient ++ _)
    rw [List.take_append_of_le_length J.returned_le, ← List.append_assoc, ← J.sent_eq, ← hmore,
      List.drop_left]
  · -- returned_le
    show t.returned.length ≤ (t.log ++ [_]).length
    rw [List.length_append]
    exact Nat.le_add_right_of_le J.returned_le
  · -- returned_eq
    intro i a ha
    obtain ⟨c', e, hc', he, rfl⟩ := J.returned_eq i a ha
    exact ⟨c', e, hc', getElem?_append_of_some he, rfl⟩

/-- All messages handed on are handled. -/
theorem serveAll (hS : S.Marshals I) : ∀ (ms : List (List UInt8)) (writes : List Writev) {t : Session S},
    SessionInv I maxmsglen ms t → ∃ t', t.serveAll ms writes = .ok t' ∧ SessionInv I maxmsglen [] t'
  | [], _, t, J => ⟨t, rfl, J⟩
  | m :: ms, writes, t, J => by
      obtain ⟨t₁, h₁, J₁, -⟩ := J.serve hS (writes.headD .again)
      obtain ⟨t', h', J'⟩ := serveAll hS ms writes.tail J₁
      refine ⟨t', ?_, J'⟩
      unfold Session.serveAll
      rw [h₁]
      exact h'

/-- The socket finds the poll set's word that it is writable. -/
theorem write (J : SessionInv I maxmsglen [] t) (r : Writev) :
    ∃ t', t.write (.writable r) = .ok t' ∧ SessionInv I maxmsglen [] t' := by
  obtain ⟨q, hq, Q, ⟨more, hmore⟩, -⟩ := J.queue.step (.writable r)
  obtain ⟨haccepted, hfails⟩ := J.queue.step_accepted hq
  change q.accepted = t.queue.accepted ++ [] at haccepted
  rw [List.append_nil] at haccepted
  have hrun : t.write (.writable r) = .ok { t with
      queue := q
      toClient := t.toClient ++ q.sent.drop t.queue.sent.length } := by
    unfold Session.write
    simp only [hq]
  refine ⟨_, hrun, { J with queue := Q, accepted_prefix := ?_, accepted_eq := ?_, sent_eq := ?_ }⟩
  · exact (congrArg (· <+: replies t.log) haccepted).mpr J.accepted_prefix
  · intro hf
    have hf₀ : t.queue.wfail = false := Bool.eq_false_iff.mpr fun h => Bool.eq_false_iff.mp hf (hfails h)
    exact haccepted.trans (J.accepted_eq hf₀)
  · show q.sent = _ ++ (t.toClient ++ _)
    rw [← List.append_assoc, ← J.sent_eq, ← hmore, List.drop_left]

/-- The reading side of the socket changes. -/
theorem setSock {s : MsgSock} {rest : List UInt8} (J : SessionInv I maxmsglen [] t)
    (hsock : Inv (serverOptions maxmsglen) s)
    (hstream : s.taken ++ s.inbox ++ rest = t.sock.taken ++ t.sock.inbox ++ t.toServer)
    (hclosed : s.closed = true → rest = [] ∧ t.broken = true)
    (hmessages : s.messages = t.sock.messages ++ ms) :
    SessionInv I maxmsglen ms { t with sock := s, toServer := rest } :=
  { J with
    sock := hsock
    stream_eq := J.stream_eq.trans hstream.symm
    closed_eq := hclosed
    messages_eq := by
      show s.messages = t.log.map Execution.message ++ ms
      rw [hmessages, J.messages_eq, List.append_nil] }

/-- The client makes a call. -/
theorem call (J : SessionInv I maxmsglen [] t) (c : Call S) (hopen : t.broken = false)
    (hidle : t.calls.length = t.returned.length) :
    SessionInv I maxmsglen []
      { t with calls := t.calls ++ [c], toServer := t.toServer ++ rawMessage c.message } := by
  refine { J with
    stream_eq := ?_
    closed_eq := ?_
    handled := ?_
    returned_eq := ?_
    returned_le_calls := ?_
    calls_le := ?_ }
  · show (t.calls ++ [c]).flatMap _ = t.sock.taken ++ t.sock.inbox ++ (t.toServer ++ _)
    rw [List.flatMap_append, J.stream_eq, List.append_assoc, List.flatMap_singleton]
  · intro h
    have hbroken := (J.closed_eq h).2
    rw [hopen] at hbroken
    cases hbroken
  · intro i e he
    obtain ⟨c', hc', H⟩ := J.handled i e he
    exact ⟨c', getElem?_append_of_some hc', H⟩
  · intro i a ha
    obtain ⟨c', e, hc', he, rfl⟩ := J.returned_eq i a ha
    exact ⟨c', e, getElem?_append_of_some hc', he, rfl⟩
  · show t.returned.length ≤ (t.calls ++ [c]).length
    rw [List.length_append]
    exact Nat.le_add_right_of_le J.returned_le_calls
  · show (t.calls ++ [c]).length ≤ t.returned.length + 1
    rw [List.length_append, List.length_singleton, hidle]

/-- The bytes the client has not read begin with the replies that have not been returned. -/
theorem toClient_prefix (J : SessionInv I maxmsglen [] t) :
    t.toClient <+: (replies (t.log.drop t.returned.length)).flatMap rawMessage := by
  have hmono : t.queue.accepted.flatMap rawMessage <+: (replies t.log).flatMap rawMessage := by
    obtain ⟨more, hmore⟩ := J.accepted_prefix
    rw [← hmore, List.flatMap_append]
    exact List.prefix_append _ _
  have hsent := J.queue.sent_prefix.trans hmono
  rw [J.sent_eq, ← replies_take_append_drop t.returned.length t.log, List.flatMap_append] at hsent
  exact (List.prefix_append_right_inj _).mp hsent

/-- The next entry of the log is that of the call that has not returned. -/
theorem pending {c : Call S} (J : SessionInv I maxmsglen [] t) (hc : t.calls[t.returned.length]? = some c)
    (hlog : t.log.drop t.returned.length ≠ []) :
    ∃ e, t.log[t.returned.length]? = some e ∧ c.HandledBy I e ∧
      replies (t.log.drop t.returned.length) =
        c.reply e.before :: replies (t.log.drop (t.returned.length + 1)) := by
  have hlt : t.returned.length < t.log.length := by
    rw [← Nat.not_le]
    exact fun hle => hlog (List.drop_eq_nil_of_le hle)
  have hget : t.log[t.returned.length]? = some t.log[t.returned.length] := List.getElem?_eq_getElem hlt
  obtain ⟨c', hc', H⟩ := J.handled _ _ hget
  obtain rfl : c = c' := Option.some.inj (hc.symm.trans hc')
  refine ⟨_, hget, H, ?_⟩
  unfold replies
  rw [List.drop_eq_getElem_cons hlt, List.filterMap_cons, H.reply_eq]

/-- **What the client reads is the reply to its call.** -/
theorem reply_read (hS : S.Marshals I) {c : Call S} {m rest : List UInt8} (J : SessionInv I maxmsglen [] t)
    (hc : t.calls[t.returned.length]? = some c) (hread : readMessage false t.toClient = .ok (m, rest)) :
    ∃ e, t.log[t.returned.length]? = some e ∧ c.HandledBy I e ∧ m = c.reply e.before := by
  obtain ⟨hstream, hm, -⟩ := stream_of_readMessage hread
  have hprefix := J.toClient_prefix
  have hlog : t.log.drop t.returned.length ≠ [] := by
    intro hnil
    rw [hnil, hstream] at hprefix
    have hlen := hprefix.length_le
    rw [List.length_append, length_rawMessage] at hlen
    simp [replies] at hlen
  obtain ⟨e, he, H, hreplies⟩ := J.pending hc hlog
  rw [hreplies, List.flatMap_cons, hstream] at hprefix
  obtain ⟨more, hmore⟩ := hprefix
  rw [List.append_assoc] at hmore
  exact ⟨e, he, H, (rawMessage_inj hm (length_reply_lt hS c H.before) hmore).1⟩

/-- A call returns what its procedure returned. -/
theorem returned {c : Call S} {e : Execution σ} {rest : List UInt8} (J : SessionInv I maxmsglen [] t)
    (hc : t.calls[t.returned.length]? = some c) (he : t.log[t.returned.length]? = some e)
    (H : c.HandledBy I e) (hstream : t.toClient = rawMessage (c.reply e.before) ++ rest) :
    SessionInv I maxmsglen []
      { t with returned := t.returned ++ [c.answer e.before], toClient := rest } := by
  have hlen : (t.returned ++ [c.answer e.before]).length = t.returned.length + 1 := List.length_append
  have htake : replies (t.log.take (t.returned.length + 1)) =
      replies (t.log.take t.returned.length) ++ [c.reply e.before] := by
    unfold replies
    rw [List.take_add_one, he, List.filterMap_append]
    simp [H.reply_eq]
  refine { J with
    sent_eq := ?_
    returned_le := ?_
    returned_eq := ?_
    returned_le_calls := ?_
    calls_le := ?_ }
  · show t.queue.sent = (replies (t.log.take (t.returned ++ [_]).length)).flatMap rawMessage ++ rest
    rw [hlen, htake, J.sent_eq, hstream, List.flatMap_append, List.flatMap_singleton, List.append_assoc]
  · exact hlen.trans_le (List.getElem?_eq_some_iff.mp he).1
  · intro i a ha
    obtain hold | ⟨rfl, rfl⟩ := getElem?_of_snoc ha
    · exact J.returned_eq i a hold
    · exact ⟨c, e, hc, he, rfl⟩
  · exact hlen.trans_le (List.getElem?_eq_some_iff.mp hc).1
  · show t.calls.length ≤ (t.returned ++ [_]).length + 1
    rw [hlen]
    exact Nat.le_succ_of_le J.calls_le

theorem receive (hS : S.Marshals I) {c : Call S} (J : SessionInv I maxmsglen [] t)
    (hc : t.calls[t.returned.length]? = some c) (ended : Bool) :
    SessionInv I maxmsglen [] (t.receive ended c) := by
  have hbroken : SessionInv I maxmsglen [] { t with broken := true } :=
    { J with closed_eq := fun h => ⟨(J.closed_eq h).1, rfl⟩ }
  unfold Session.receive
  split
  · rename_i m rest hread
    obtain ⟨e, he, H, rfl⟩ := J.reply_read hS hc hread
    obtain ⟨hstream, -, -⟩ := stream_of_readMessage hread
    rw [readReply_reply hS c H.before]
    exact J.returned hc he H hstream
  · split_ifs
    · exact J
    · exact hbroken

/-- **Step lemma**: every step is possible and keeps the invariant, but for a short write. -/
theorem step (hS : S.Marshals I) (J : SessionInv I maxmsglen [] t) {e : SessionEvent S}
    (he : ∀ s, e = .elsewhere s → I s) :
    (∃ t', Session.step maxmsglen e t = .ok t' ∧ SessionInv I maxmsglen [] t') ∨
      e.Short ∧ Session.step maxmsglen e t = .error .shortWrite := by
  by_cases hshort : e.Short
  · cases e with
    | call c r =>
        cases r with
        | failed => exact absurd hshort id
        | takes n =>
            by_cases hbusy : t.broken = true ∨ t.calls.length ≠ t.returned.length
            · exact Or.inl ⟨t, by simp only [Session.step, if_pos hbusy], J⟩
            · have hlt : n < (rawMessage c.message).length := hshort
              exact Or.inr ⟨hshort, by simp only [Session.step, if_neg hbusy, makeCall, if_pos hlt]⟩
    | _ => exact absurd hshort id
  left
  cases e with
  | call c r =>
      by_cases hbusy : t.broken = true ∨ t.calls.length ≠ t.returned.length
      · exact ⟨t, by simp only [Session.step, if_pos hbusy], J⟩
      obtain ⟨hopen, hidle⟩ := not_or.mp hbusy
      cases r with
      | failed =>
          exact ⟨{ t with broken := true }, by simp only [Session.step, if_neg hbusy, makeCall],
            { J with closed_eq := fun h => ⟨(J.closed_eq h).1, rfl⟩ }⟩
      | takes n =>
          have hall : ¬ n < (rawMessage c.message).length := hshort
          exact ⟨_, by simp only [Session.step, if_neg hbusy, makeCall, if_neg hall],
            J.call c (Bool.not_eq_true _ ▸ hopen) (not_not.mp hidle)⟩
  | carry n =>
      refine ⟨_, rfl, ?_⟩
      have hsock : Inv (serverOptions maxmsglen) (if t.sock.closed then t.sock
          else { t.sock with inbox := t.sock.inbox ++ t.toServer.take n }) :=
        J.sock.step (e := .arrive (t.toServer.take n)) rfl
      refine J.setSock hsock ?_ ?_ ?_
      · split_ifs with hclosed
        · rw [(J.closed_eq hclosed).1, List.drop_nil]
        · show t.sock.taken ++ (t.sock.inbox ++ _) ++ _ = _
          rw [← List.append_assoc, List.append_assoc, List.take_append_drop]
      · split_ifs with hclosed
        · intro _
          obtain ⟨hnil, hbroken⟩ := J.closed_eq hclosed
          exact ⟨by rw [hnil, List.drop_nil], hbroken⟩
        · exact fun h => absurd h hclosed
      · split_ifs
        · exact (List.append_nil _).symm
        · exact (List.append_nil _).symm
  | readable attempts writes =>
      obtain ⟨s, hs⟩ : ∃ s, t.sock.step (serverOptions maxmsglen) (.readable attempts) = .ok s := ⟨_, rfl⟩
      obtain ⟨R, more, hmore⟩ := readable_spec J.sock hs
      have hsock : t.sockStep maxmsglen (.readable attempts) = { t with sock := s } := by
        unfold Session.sockStep
        rw [hs]
      have J' : SessionInv I maxmsglen more { t with sock := s } := by
        refine J.setSock (J.sock.step hs) ?_ (fun h => J.closed_eq (R.closed_eq ▸ h)) hmore.symm
        rw [R.stream_eq]
      obtain ⟨t', h', J''⟩ := J'.serveAll hS more writes
      refine ⟨t', ?_, J''⟩
      unfold Session.step
      dsimp only
      rw [hsock]
      show (Session.serveAll (s.messages.drop t.sock.messages.length) writes
        { t with sock := s }).mapError _ = _
      rw [← hmore, List.drop_left, h']
      rfl
  | writable r =>
      unfold Session.step
      dsimp only
      split_ifs
      · exact ⟨t, rfl, J⟩
      · obtain ⟨t', h', J'⟩ := J.write r
        exact ⟨t', by rw [h']; rfl, J'⟩
  | receive ended =>
      refine ⟨_, rfl, ?_⟩
      split_ifs with hbroken
      · exact J
      split
      · exact J
      · rename_i c rest hdrop
        have hc : t.calls[t.returned.length]? = some c := by
          rw [← List.head?_drop, hdrop]
          rfl
        exact J.receive hS hc ended
  | hangup =>
      refine ⟨_, rfl, ?_⟩
      split_ifs with hend
      · have hsock : Inv (serverOptions maxmsglen) { t.sock with closed := true } :=
          J.sock.step (e := .close) rfl
        exact J.setSock hsock rfl (fun _ => ⟨hend.2, hend.1⟩) (List.append_nil _).symm
      · exact J
  | elsewhere s => exact ⟨_, rfl, { J with handler := he s rfl }⟩

end SessionInv

/-- Nothing is on its way or waits to be written, both ends are well, the messages are not too long for the
server, and the client accepts the lengths of the replies. -/
structure Session.Settled (maxmsglen : ℕ) (t : Session S) : Prop where
  broken_eq : t.broken = false
  toServer_eq : t.toServer = []
  inbox_eq : t.sock.inbox = []
  destroyed_eq : t.sock.destroyed = false
  wfail_eq : t.queue.wfail = false
  wsize_eq : t.queue.wsize = 0
  short : ∀ c ∈ t.calls, c.message.length ≤ maxmsglen
  clear : ∀ e ∈ t.log, ∀ r, e.reply = some r → r.length / 2 ^ 24 % 4 = 0

namespace SessionInv

variable {I : σ → Prop} {maxmsglen : ℕ} {t : Session S}

/-- In a settled session all calls were handled. -/
theorem log_length (J : SessionInv I maxmsglen [] t) (Q : t.Settled maxmsglen) :
    t.log.length = t.calls.length := by
  have htaken : t.sock.taken = (t.calls.map Call.message).flatMap rawMessage := by
    rw [List.flatMap_map, J.stream_eq, Q.inbox_eq, Q.toServer_eq, List.append_nil, List.append_nil]
  have hframes : ((format (serverOptions maxmsglen)).feedAll (.header []) t.sock.taken).2 =
      t.calls.map Call.message := by
    rw [htaken, (format (serverOptions maxmsglen)).feedAll_frames]
    intro m hm
    obtain ⟨c, hc, rfl⟩ := List.mem_map.mp hm
    exact isFrame_rawMessage (Q.short c hc) c.size_lt
  have hmessages : t.sock.messages = t.calls.map Call.message :=
    ((J.sock.stands Q.destroyed_eq).2).trans hframes
  have hlen := congrArg List.length (J.messages_eq.symm.trans hmessages)
  rwa [List.append_nil, List.length_map, List.length_map] at hlen

/-- The reply to the last call is there to be read. -/
theorem toClient_eq (J : SessionInv I maxmsglen [] t) (Q : t.Settled maxmsglen) :
    t.toClient = (replies (t.log.drop t.returned.length)).flatMap rawMessage := by
  obtain ⟨A, hstream⟩ := J.queue.accounts Q.wfail_eq
  have hunsent : t.queue.unsent = [] := List.length_eq_zero_iff.mp (A.wsize_eq ▸ Q.wsize_eq)
  rw [hunsent, List.append_nil, J.accepted_eq Q.wfail_eq, J.sent_eq,
    ← replies_take_append_drop t.returned.length t.log, List.flatMap_append] at hstream
  exact List.append_cancel_left hstream

/-- **In a settled session a call that has not returned can return.** -/
theorem returns (hS : S.Marshals I) (J : SessionInv I maxmsglen [] t) (Q : t.Settled maxmsglen)
    (hpending : t.returned.length < t.calls.length) (ended : Bool) :
    ∃ t', Session.step maxmsglen (.receive ended) t = .ok t' ∧
      t'.returned.length = t.returned.length + 1 := by
  have hlog := J.log_length Q
  have hle := J.calls_le
  have hc : t.calls[t.returned.length]? = some t.calls[t.returned.length] :=
    List.getElem?_eq_getElem hpending
  have hdrop : t.log.drop t.returned.length ≠ [] := by
    intro hnil
    have := List.drop_eq_nil_iff.mp hnil
    omega
  obtain ⟨e, he, H, hreplies⟩ := J.pending hc hdrop
  have hlast : t.log.drop (t.returned.length + 1) = [] := List.drop_eq_nil_of_le (by omega)
  have hclient := J.toClient_eq Q
  rw [hreplies, hlast] at hclient
  change t.toClient = rawMessage _ ++ [] at hclient
  have hread := readMessage_rawMessage false (length_reply_lt hS _ H.before)
    (Q.clear e (List.mem_of_getElem? he) _ H.reply_eq) []
  rw [← hclient] at hread
  refine ⟨_, rfl, ?_⟩
  rw [if_neg (by rw [Q.broken_eq]; exact Bool.false_ne_true), List.drop_eq_getElem_cons hpending]
  dsimp only
  unfold Session.receive
  rw [hread]
  dsimp only
  rw [readReply_reply hS _ H.before]
  exact List.length_append

end SessionInv

/-- **Calls are handled at most once, in order, and return what they did.** In every run of a session, however
the bytes are cut up, wherever it breaks off and whatever the handler does for others: no assertion fails but
the one on a short write. The messages handled are those of the first calls, each once; what a call has
returned is the result its procedure had when its message was handled; and only the last call may not have
returned. In a settled session that one returns as well. -/
theorem calls_answered {I : σ → Prop} (hS : S.Marshals I) {maxmsglen : ℕ} {s : σ} (hs : I s)
    {t : Session S}
    (h : Reach (Session.step maxmsglen) (fun _ e => ∀ s, e = .elsewhere s → I s) (.init S s) t) :
    (∀ e, (∀ s, e = .elsewhere s → I s) → (∃ t', Session.step maxmsglen e t = .ok t') ∨
      e.Short ∧ Session.step maxmsglen e t = .error .shortWrite) ∧
    (∀ (i : ℕ) (e : Execution σ), t.log[i]? = some e → ∃ c : Call S, t.calls[i]? = some c ∧
      e.message = c.message ∧ e.after = (c.procedure.run c.arg e.before).2) ∧
    (∀ (i : ℕ) (a : Answer S), t.returned[i]? = some a → ∃ (c : Call S) (e : Execution σ),
      t.calls[i]? = some c ∧ t.log[i]? = some e ∧ a = c.answer e.before) ∧
    t.calls.length ≤ t.returned.length + 1 ∧
    (t.Settled maxmsglen → t.returned.length < t.calls.length →
      ∃ t', Session.step maxmsglen (.receive false) t = .ok t' ∧
        t'.returned.length = t.returned.length + 1) := by
  have J : SessionInv I maxmsglen [] t := by
    refine h.invariant (SessionInv.init hs) fun u v e J he hstep => ?_
    rcases J.step hS he with ⟨u', hu', J'⟩ | ⟨-, hshort⟩
    · exact Except.ok.inj (hu'.symm.trans hstep) ▸ J'
    · cases hshort.symm.trans hstep
  refine ⟨fun e he => ?_, fun i e he => ?_, J.returned_eq, J.calls_le, fun Q hpending => ?_⟩
  · exact (J.step hS he).imp_left fun ⟨t', ht', _⟩ => ⟨t', ht'⟩
  · obtain ⟨c, hc, H⟩ := J.handled i e he
    exact ⟨c, hc, H.message_eq, H.after_eq⟩
  · exact J.returns hS Q hpending false

/-! ### Two calls of the register -/

theorem marshals_register : register.Marshals (fun s : ℕ => s < 2 ^ 32) := by
  have hprocs : ∀ {proc : ℕ} {P : Procedure ℕ}, register.procs proc = some P → P = exchange := by
    intro proc P h
    change (if proc = 1 then some exchange else none) = some P at h
    split_ifs at h
    exact (Option.some.inj h).symm
  refine ⟨fun {proc P a s} hP ha hs => ?_, fun {proc P a s} hP ha hs => ?_, fun {proc P a s} hP ha hs => ?_⟩
  · obtain rfl := hprocs hP
    exact hs
  · obtain rfl := hprocs hP
    have hlen : (exchange.res.put (exchange.run a s).1).length = 4 := rfl
    omega
  · obtain rfl := hprocs hP
    exact ha

theorem length_exchange_lt (xid n : ℕ) :
    (callMsg xid register.prog register.vers 1 exchange.arg n).length < 2 ^ 31 := by
  have hlen : (callMsg xid register.prog register.vers 1 exchange.arg n).length = 44 := rfl
  omega

/-- The call that stores `n`. -/
def exchangeCall (xid n : UInt32) : Call register where
  proc := 1
  procedure := exchange
  arg := n.toNat
  xid := xid.toNat
  procs_eq := rfl
  fits := n.toNat_lt
  xid_lt := xid.toNat_lt
  size_lt := length_exchange_lt xid.toNat n.toNat

/-- Bytes and the reply come in pieces; between the calls somebody else stores 6. -/
def twoCalls : List (SessionEvent register) :=
  [.call (exchangeCall 3 9) (.takes 90), .carry 10, .readable [.take 9] [], .carry 90,
    .readable [.take 90, .take 90] [.takes 7], .receive false, .writable (.takes 90), .receive false,
    .elsewhere 6, .call (exchangeCall 8 4) (.takes 48), .carry 90, .readable [] [.takes 90],
    .receive false]

/-- What is stored elsewhere is a word. -/
def wordCheck (_ : Session register) : SessionEvent register → Bool
  | .elsewhere s => s < 2 ^ 32
  | _ => true

/-- The calls return 5, which was stored at first, and 6. -/
theorem calls_answered_two : ∃ t, Reach (Session.step 100)
      (fun _ e => ∀ s, e = .elsewhere s → s < 2 ^ 32) (.init register 5) t ∧
    t.log.map (fun e => (e.before, e.after)) = [(5, 9), (6, 4)] ∧ t.returned.length = 2 ∧
    ∀ (i : ℕ) (a : Answer register), t.returned[i]? = some a → ∃ (c : Call register) (e : Execution ℕ),
      t.calls[i]? = some c ∧ t.log[i]? = some e ∧ a = c.answer e.before := by
  have hrun : (runListIf (Session.step 100) wordCheck twoCalls (.init register 5)).map
      (fun t => (t.log.map fun e => (e.before, e.after), t.returned.length)) =
        some ([(5, 9), (6, 4)], 2) := by
    decide +kernel
  obtain ⟨t, ht, heq⟩ := Option.map_eq_some_iff.mp hrun
  obtain ⟨hlog, hlen⟩ := Prod.mk.inj heq
  have hreach : Reach (Session.step 100) (fun _ e => ∀ s, e = .elsewhere s → s < 2 ^ 32)
      (.init register 5) t := by
    refine Reach.of_runListIf (fun u e hcheck s hs => ?_) ht
    rw [hs] at hcheck
    exact of_decide_eq_true hcheck
  obtain ⟨-, -, hreturned, -⟩ := calls_answered marshals_register (show 5 < 2 ^ 32 by decide) hreach
  exact ⟨t, hreach, hlog, hlen, hreturned⟩

end Fred.Xdrpp
