/-
# Fred.Xdrpp.Rpc -- remote calls

A client writes a call header and the argument (`invoke` of `xdrpp/srpc.h`), the server takes the message
apart, runs the procedure and writes a reply header and the result (`rpc_sock::recv_msg`,
`rpc_server_base::dispatch`, `srpc_service`), and the client takes that apart. The header is a `rpc_msg` as
`xdrpp/rpc_msg.x` declares it; the code for it is generated.

A call runs its procedure on the argument it was made with, and returns the result (`call_returns`). No other
message runs a procedure, whatever its bytes are, and what the server answers to it no client takes for a
result (`only_calls_run`).

Every server of the program registers one service. Results can be marshaled here; `serve` does not ask.
-/
import Fred.Lib.Xdr

namespace Fred.Xdrpp

open Fred.Xdr

/-! ## `rpc_msg` -/

structure OpaqueAuth where
  flavor : ℕ
  body : List UInt8
  deriving DecidableEq, Repr

/-- `AUTH_NONE`, as the constructor leaves it. -/
def OpaqueAuth.none : OpaqueAuth := ⟨0, []⟩

structure CallBody where
  rpcvers : ℕ
  prog : ℕ
  vers : ℕ
  proc : ℕ
  cred : OpaqueAuth
  verf : OpaqueAuth
  deriving DecidableEq, Repr

/-- `reply_data` of an `accepted_reply`. -/
inductive ReplyData where
  | success
  | progMismatch (low high : ℕ)
  | other (stat : ℕ)
  deriving DecidableEq, Repr

inductive RejectedReply where
  | rpcMismatch (low high : ℕ)
  | authError (why : ℕ)
  deriving DecidableEq, Repr

inductive ReplyBody where
  | accepted (verf : OpaqueAuth) (data : ReplyData)
  | denied (r : RejectedReply)
  deriving DecidableEq, Repr

inductive RpcBody where
  | call (c : CallBody)
  | reply (r : ReplyBody)
  deriving DecidableEq, Repr

structure RpcMsg where
  xid : ℕ
  body : RpcBody
  deriving DecidableEq, Repr

namespace Rpc

def opaqueAuth : Codec OpaqueAuth :=
  (Codec.uint32.pair (Codec.opaqueVec 400 (by decide))).map (fun x => ⟨x.1, x.2⟩)
    (fun a => (a.flavor, a.body)) (fun _ => rfl) fun _ _ => rfl

def callBody : Codec CallBody :=
  (Codec.uint32.pair (Codec.uint32.pair (Codec.uint32.pair (Codec.uint32.pair
    (opaqueAuth.pair opaqueAuth))))).map
    (fun x => ⟨x.1, x.2.1, x.2.2.1, x.2.2.2.1, x.2.2.2.2.1, x.2.2.2.2.2⟩)
    (fun c => (c.rpcvers, c.prog, c.vers, c.proc, c.cred, c.verf)) (fun _ => rfl) fun _ _ => rfl

def mismatchInfo : Codec (ℕ × ℕ) := Codec.uint32.pair Codec.uint32

/-- `SUCCESS` is 0, `PROG_MISMATCH` is 2, and the others have no data. -/
def replyDataTag : ReplyData → ℕ
  | .success => 0
  | .progMismatch _ _ => 2
  | .other stat => stat

def replyDataCase (n : ℕ) : Codec ReplyData :=
  if n = 0 then
    Codec.void.case (fun _ => .success)
      (fun | .success => some () | _ => none) (by rintro a (_ | _ | _) <;> simp)
  else if n = 2 then
    mismatchInfo.case (fun x => .progMismatch x.1 x.2)
      (fun | .progMismatch low high => some (low, high) | _ => none)
      (by rintro ⟨a, b⟩ (_ | _ | _) <;> simp)
  else
    Codec.void.case (fun _ => .other n) (fun d => if d = .other n then some () else none)
      (by intro a b; split_ifs with h <;> simp [h])

def replyData : Codec ReplyData :=
  Codec.union replyDataTag (fun n => some (replyDataCase n)) (by
    intro n c hc b hb
    obtain rfl := Option.some.inj hc
    unfold replyDataCase at hb
    split_ifs at hb with hzero htwo
    · exact Codec.tag_of_case (by exact fun _ => hzero.symm) b hb
    · exact Codec.tag_of_case (by exact fun _ => htwo.symm) b hb
    · exact Codec.tag_of_case (fun _ => rfl) b hb)

/-- A union of the cases 0 and 1. -/
def twoCases {β : Type} (tag : β → ℕ) (c₀ c₁ : Codec β) (h₀ : ∀ b, c₀.Fits b → tag b = 0)
    (h₁ : ∀ b, c₁.Fits b → tag b = 1) : Codec β :=
  Codec.union tag (fun n => if n = 0 then some c₀ else if n = 1 then some c₁ else none) (by
    intro n c hc b hb
    split_ifs at hc with hzero hone
    · exact hzero ▸ h₀ b (Option.some.inj hc ▸ hb)
    · exact hone ▸ h₁ b (Option.some.inj hc ▸ hb))

def rejectedReply : Codec RejectedReply :=
  twoCases (fun | .rpcMismatch _ _ => 0 | .authError _ => 1)
    (mismatchInfo.case (fun x => .rpcMismatch x.1 x.2)
      (fun | .rpcMismatch low high => some (low, high) | _ => none)
      (by rintro ⟨a, b⟩ (_ | _) <;> simp))
    (Codec.uint32.case .authError (fun | .authError why => some why | _ => none)
      (by rintro a (_ | _) <;> simp))
    (Codec.tag_of_case fun _ => rfl) (Codec.tag_of_case fun _ => rfl)

def replyBody : Codec ReplyBody :=
  twoCases (fun | .accepted _ _ => 0 | .denied _ => 1)
    ((opaqueAuth.pair replyData).case (fun x => .accepted x.1 x.2)
      (fun | .accepted verf data => some (verf, data) | _ => none)
      (by rintro ⟨a, b⟩ (_ | _) <;> simp))
    (rejectedReply.case .denied (fun | .denied r => some r | _ => none)
      (by rintro a (_ | _) <;> simp))
    (Codec.tag_of_case fun _ => rfl) (Codec.tag_of_case fun _ => rfl)

/-- `CALL` is 0, `REPLY` is 1. -/
def rpcBody : Codec RpcBody :=
  twoCases (fun | .call _ => 0 | .reply _ => 1)
    (callBody.case .call (fun | .call c => some c | _ => none) (by rintro a (_ | _) <;> simp))
    (replyBody.case .reply (fun | .reply r => some r | _ => none) (by rintro a (_ | _) <;> simp))
    (Codec.tag_of_case fun _ => rfl) (Codec.tag_of_case fun _ => rfl)

def rpcMsg : Codec RpcMsg :=
  (Codec.uint32.pair rpcBody).map (fun x => ⟨x.1, x.2⟩) (fun m => (m.xid, m.body)) (fun _ => rfl)
    fun _ _ => rfl

/-! ## Replies the server writes by hand -/

def words (ns : List ℕ) : List UInt8 := ns.flatMap Opaque.put32

/-- `rpc_accepted_error_msg`. -/
def acceptedErrorMsg (xid stat : ℕ) : List UInt8 := words [xid, 1, 0, 0, 0, stat]

/-- `rpc_prog_mismatch_msg`. -/
def progMismatchMsg (xid low high : ℕ) : List UInt8 := words [xid, 1, 0, 0, 0, 2, low, high]

/-- `rpc_rpc_mismatch_msg`. -/
def rpcMismatchMsg (xid : ℕ) : List UInt8 := words [xid, 1, 1, 0, 2, 2]

/-- `rpc_success_hdr`. -/
def successHdr (xid : ℕ) : List UInt8 := words [xid, 1, 0, 0, 0, 0]

theorem acceptedErrorMsg_eq {xid stat : ℕ} (hzero : stat ≠ 0) (htwo : stat ≠ 2) :
    acceptedErrorMsg xid stat = rpcMsg.put ⟨xid, .reply (.accepted .none (.other stat))⟩ := by
  have hdata : replyData.put (.other stat) = Opaque.put32 stat := by
    show Opaque.put32 stat ++ (replyDataCase stat).put (.other stat) = _
    unfold replyDataCase
    rw [if_neg hzero, if_neg htwo]
    simp [Codec.case, Codec.void]
  show _ = Opaque.put32 xid ++ (Opaque.put32 1 ++ (Opaque.put32 0 ++
    (opaqueAuth.put .none ++ replyData.put (.other stat))))
  rw [hdata]
  rfl

theorem progMismatchMsg_eq (xid low high : ℕ) : progMismatchMsg xid low high =
    rpcMsg.put ⟨xid, .reply (.accepted .none (.progMismatch low high))⟩ := by
  have hinfo : mismatchInfo.put (low, high) = words [low, high] := by
    simp [words, mismatchInfo, Codec.pair, Codec.uint32]
  show _ = Opaque.put32 xid ++ (Opaque.put32 1 ++ (Opaque.put32 0 ++
    (opaqueAuth.put .none ++ (Opaque.put32 2 ++ mismatchInfo.put (low, high)))))
  rw [hinfo]
  rfl

theorem rpcMismatchMsg_eq (xid : ℕ) :
    rpcMismatchMsg xid = rpcMsg.put ⟨xid, .reply (.denied (.rpcMismatch 2 2))⟩ := rfl

theorem successHdr_eq (xid : ℕ) :
    successHdr xid = rpcMsg.put ⟨xid, .reply (.accepted .none .success)⟩ := rfl

end Rpc

open Rpc

/-! ## The server -/

/-- A procedure of a service whose handler has the state `σ`. -/
structure Procedure (σ : Type) where
  Arg : Type
  Res : Type
  arg : Codec Arg
  res : Codec Res
  run : Arg → σ → Res × σ

structure Service (σ : Type) where
  prog : ℕ
  vers : ℕ
  /-- `call_dispatch`, by number. -/
  procs : ℕ → Option (Procedure σ)
  prog_lt : prog < 2 ^ 32
  vers_lt : vers < 2 ^ 32
  procs_lt : ∀ n P, procs n = some P → n < 2 ^ 32

theorem one_lt_two_pow_32 : 1 < 2 ^ 32 := by decide

/-- What becomes of a message: it is ignored, the connection is closed, or there is a reply. -/
inductive Served where
  | ignored
  | closed
  | replied (m : List UInt8)
  deriving DecidableEq, Repr

variable {σ : Type}

/-- `dispatch` of a `srpc_service`, on what is left of the message behind its header. -/
def Procedure.serve (P : Procedure σ) (xid : ℕ) (rest : List UInt8) (s : σ) : Served × σ :=
  match P.arg.get rest with
  | .error _ => (.replied (acceptedErrorMsg xid 4), s)
  | .ok (a, rest) =>
    if rest ≠ [] then (.replied (acceptedErrorMsg xid 4), s)
    else (.replied (successHdr xid ++ P.res.put (P.run a s).1), (P.run a s).2)

namespace Service

variable (S : Service σ)

/-- `rpc_server_base::dispatch`, and `process` of the service. -/
def dispatch (m : List UInt8) (s : σ) : Served × σ :=
  -- the constructor of `xdr_get` throws, which is caught where the connection is closed
  if m.length % 4 ≠ 0 then (.closed, s)
  else
    match rpcMsg.get m with
    | .error _ => (.ignored, s)
    | .ok (⟨_, .reply _⟩, _) => (.ignored, s)
    | .ok (⟨xid, .call c⟩, rest) =>
      if c.rpcvers ≠ 2 then (.replied (rpcMismatchMsg xid), s)
      else if c.prog ≠ S.prog then (.replied (acceptedErrorMsg xid 1), s)
      else if c.vers ≠ S.vers then (.replied (progMismatchMsg xid S.vers S.vers), s)
      else
        match S.procs c.proc with
        | none => (.replied (acceptedErrorMsg xid 3), s)
        | some P => P.serve xid rest s

/-- `rpc_sock::recv_msg` of a socket on which no calls are made. -/
def receive (m : List UInt8) (s : σ) : Served × σ :=
  if m.length < 8 then (.closed, s)
  else
    match getWord (m.drop 4) with
    | .ok (0, _) => S.dispatch m s
    | .ok (1, _) => (.ignored, s)
    | _ => (.closed, s)

end Service

/-! ## The client -/

/-- What `invoke` throws on a reply. -/
inductive CallError where
  | badMessageSize
  | unmarshal (e : Exn)
  | callReceived
  | acceptedError (data : ReplyData)
  | denied (r : RejectedReply)
  | unexpectedXid
  deriving DecidableEq, Repr

/-- The message of a call: `prepare_call`, and the argument. -/
def callMsg {α : Type} (xid prog vers proc : ℕ) (arg : Codec α) (a : α) : List UInt8 :=
  rpcMsg.put ⟨xid, .call ⟨2, prog, vers, proc, .none, .none⟩⟩ ++ arg.put a

/-- `invoke` from the reply on: `check_call_hdr`, the number of the call, and the result. -/
def readReply {β : Type} (xid : ℕ) (res : Codec β) (m : List UInt8) : Except CallError β :=
  if m.length % 4 ≠ 0 then .error .badMessageSize
  else
    match rpcMsg.get m with
    | .error e => .error (.unmarshal e)
    | .ok (⟨_, .call _⟩, _) => .error .callReceived
    | .ok (⟨_, .reply (.denied r)⟩, _) => .error (.denied r)
    | .ok (⟨xid', .reply (.accepted _ data)⟩, rest) =>
      if data ≠ .success then .error (.acceptedError data)
      else if xid' ≠ xid then .error .unexpectedXid
      else
        match res.get rest with
        | .error e => .error (.unmarshal e)
        | .ok (b, rest) => if rest ≠ [] then .error (.unmarshal .badMessageSize) else .ok b

/-! ## Calls -/

section
variable {S : Service σ} {P : Procedure σ} {xid proc : ℕ} {m : List UInt8} {s : σ}

theorem fits_call {c : CallBody} (hxid : xid < 2 ^ 32) (hc : callBody.Fits c) :
    rpcMsg.Fits ⟨xid, .call c⟩ := ⟨hxid, Nat.two_pow_pos 32, _, rfl, c, rfl, hc⟩

theorem fits_denied {r : RejectedReply} (hxid : xid < 2 ^ 32) (hr : rejectedReply.Fits r) :
    rpcMsg.Fits ⟨xid, .reply (.denied r)⟩ :=
  ⟨hxid, one_lt_two_pow_32, _, rfl, _, rfl, one_lt_two_pow_32, _, rfl, r, rfl, hr⟩

theorem fits_none : opaqueAuth.Fits .none := ⟨Nat.two_pow_pos 32, Nat.zero_le _⟩

theorem fits_accepted {data : ReplyData} (hxid : xid < 2 ^ 32) (hdata : replyData.Fits data) :
    rpcMsg.Fits ⟨xid, .reply (.accepted .none data)⟩ :=
  ⟨hxid, one_lt_two_pow_32, _, rfl, _, rfl, Nat.two_pow_pos 32, _, rfl, (.none, data), rfl,
    fits_none, hdata⟩

theorem fits_success : replyData.Fits .success := ⟨by decide, _, rfl, (), rfl, trivial⟩

theorem fits_progMismatch {low high : ℕ} (hlow : low < 2 ^ 32) (hhigh : high < 2 ^ 32) :
    replyData.Fits (.progMismatch low high) :=
  ⟨(show 2 < 2 ^ 32 by decide), _, rfl, (low, high), rfl, hlow, hhigh⟩

theorem fits_other {stat : ℕ} (hstat : stat < 2 ^ 32) (hzero : stat ≠ 0) (htwo : stat ≠ 2) :
    replyData.Fits (.other stat) := by
  refine ⟨hstat, _, rfl, ?_⟩
  show (replyDataCase stat).Fits (.other stat)
  unfold replyDataCase
  rw [if_neg hzero, if_neg htwo]
  exact ⟨(), if_pos rfl, trivial⟩

/-- A message behind a header that fits is taken apart there. -/
theorem get_header {h : RpcMsg} (hfits : rpcMsg.Fits h) (rest : List UInt8) :
    rpcMsg.get (rpcMsg.put h ++ rest) = .ok (h, rest) := rpcMsg.get_put rest hfits

theorem length_message {β : Type} (h : RpcMsg) (c : Codec β) (b : β) :
    (rpcMsg.put h ++ c.put b).length % 4 = 0 := by
  rw [List.length_append, rpcMsg.length_put, c.length_put]
  have := rpcMsg.aligned h
  have := c.aligned b
  omega

/-- The server does not read past the end of a message: what it does about errors is all there is. -/
theorem reads_in_bounds (hm : m.length % 4 = 0) : rpcMsg.get m ≠ .error .outOfBounds ∧
    ∀ h rest, rpcMsg.get m = .ok (h, rest) → P.arg.get rest ≠ .error .outOfBounds :=
  ⟨rpcMsg.safe (Nat.dvd_of_mod_eq_zero hm),
    fun _ _ hget => P.arg.safe (rpcMsg.dvd_rest hget (Nat.dvd_of_mod_eq_zero hm))⟩

/-- A call comes through `recv_msg`. -/
theorem receive_call {c : CallBody} (rest : List UInt8) :
    S.receive (rpcMsg.put ⟨xid, .call c⟩ ++ rest) s = S.dispatch (rpcMsg.put ⟨xid, .call c⟩ ++ rest) s := by
  have hput : rpcMsg.put ⟨xid, .call c⟩ ++ rest =
      Opaque.put32 xid ++ (Opaque.put32 0 ++ (callBody.put c ++ rest)) := by
    show Opaque.put32 xid ++ (Opaque.put32 0 ++ callBody.put c) ++ rest = _
    rw [List.append_assoc, List.append_assoc]
  have hlen : ∀ n, (Opaque.put32 n).length = 4 := fun _ => rfl
  have hshort : ¬ (Opaque.put32 xid ++ (Opaque.put32 0 ++ (callBody.put c ++ rest))).length < 8 := by
    rw [List.length_append, List.length_append, hlen, hlen]
    omega
  unfold Service.receive
  rw [hput, if_neg hshort, List.drop_left' (hlen xid), getWord_put32 (by decide)]
  rfl

/-- The reply of a procedure is read back, under the number of the call and no other. -/
theorem readReply_success {β : Type} {res : Codec β} {b : β} (hxid : xid < 2 ^ 32) (hb : res.Fits b)
    (xid' : ℕ) : readReply xid' res (successHdr xid ++ res.put b) =
      if xid = xid' then .ok b else .error .unexpectedXid := by
  have hget := get_header (fits_accepted hxid fits_success) (res.put b)
  have hres := res.get_put [] hb
  rw [List.append_nil] at hres
  unfold readReply
  rw [successHdr_eq, if_neg (by rw [length_message]; simp), hget]
  simp [hres, ite_not]

/-- An error reply is no result. -/
theorem readReply_refused {r : ReplyBody} (hfits : rpcMsg.Fits ⟨xid, .reply r⟩)
    (hr : ∀ verf, r ≠ .accepted verf .success) {β : Type} (xid' : ℕ) (res : Codec β) (b : β) :
    readReply xid' res (rpcMsg.put ⟨xid, .reply r⟩) ≠ .ok b := by
  have hget := get_header hfits []
  rw [List.append_nil] at hget
  unfold readReply
  rw [hget]
  split_ifs
  · simp
  · cases r with
    | denied r => simp
    | accepted verf data =>
        have hdata : data ≠ .success := fun h => hr verf (by rw [h])
        simp [hdata]

end

/-- The server runs the procedure on the argument the call was made with. -/
theorem receive_callMsg {S : Service σ} {P : Procedure σ} {xid proc : ℕ} {a : P.Arg} {s : σ}
    (hP : S.procs proc = some P) (hxid : xid < 2 ^ 32) (ha : P.arg.Fits a) :
    S.receive (callMsg xid S.prog S.vers proc P.arg a) s =
      (.replied (successHdr xid ++ P.res.put (P.run a s).1), (P.run a s).2) := by
  have hbody : callBody.Fits ⟨2, S.prog, S.vers, proc, .none, .none⟩ :=
    ⟨(show 2 < 2 ^ 32 by decide), S.prog_lt, S.vers_lt, S.procs_lt proc P hP, fits_none, fits_none⟩
  have hget := get_header (fits_call hxid hbody) (P.arg.put a)
  have harg := P.arg.get_put [] ha
  rw [List.append_nil] at harg
  unfold callMsg
  rw [receive_call]
  unfold Service.dispatch
  rw [if_neg (by rw [length_message]; simp), hget]
  simp [hP, Procedure.serve, harg]

/-- **A call returns what its procedure returns.** The server runs the procedure on the argument the call was
made with, and the client that waits for this call reads the result out of the reply; under any other number
it throws. -/
theorem call_returns {S : Service σ} {P : Procedure σ} {xid proc : ℕ} {a : P.Arg} {s : σ}
    (hP : S.procs proc = some P) (hxid : xid < 2 ^ 32) (ha : P.arg.Fits a)
    (hres : P.res.Fits (P.run a s).1) :
    ∃ r, S.receive (callMsg xid S.prog S.vers proc P.arg a) s = (.replied r, (P.run a s).2) ∧
      ∀ xid', readReply xid' P.res r =
        if xid = xid' then .ok (P.run a s).1 else .error .unexpectedXid :=
  ⟨_, receive_callMsg hP hxid ha, readReply_success hxid hres⟩

/-! ### A register -/

/-- Store the argument and return what was stored before. -/
def exchange : Procedure ℕ := ⟨ℕ, ℕ, Codec.uint32, Codec.uint32, fun a s => (s, a)⟩

def register : Service ℕ where
  prog := 7
  vers := 1
  procs := fun n => if n = 1 then some exchange else none
  prog_lt := by decide
  vers_lt := one_lt_two_pow_32
  procs_lt := by
    intro n P h
    split_ifs at h
    omega

/-- Storing 9 where 5 was stored returns 5, to the caller with number 3. -/
theorem call_returns_register : ∃ r, register.receive (callMsg 3 7 1 1 Codec.uint32 9) 5 = (.replied r, 9) ∧
    readReply 3 Codec.uint32 r = .ok 5 ∧ readReply 4 Codec.uint32 r = .error .unexpectedXid := by
  have hfits : ∀ n : ℕ, n < 10 → Codec.uint32.Fits n := fun n hn => show n < 2 ^ 32 by omega
  have hP : register.procs 1 = some exchange := rfl
  obtain ⟨r, hserved, hread⟩ := call_returns hP (hfits 3 (by decide)) (hfits 9 (by decide))
    (hfits 5 (by decide))
  exact ⟨r, hserved, hread 3, hread 4⟩

/-! ## Other messages -/

/-- No client takes what is done about a message for the result of a call. -/
def Served.Refused (o : Served) : Prop :=
  ∀ r, o = .replied r → ∀ (xid : ℕ) {β : Type} (res : Codec β) (b : β), readReply xid res r ≠ .ok b

theorem refused_reply {xid : ℕ} {r : ReplyBody} {m : List UInt8}
    (hm : m = rpcMsg.put ⟨xid, .reply r⟩) (hfits : rpcMsg.Fits ⟨xid, .reply r⟩)
    (hr : ∀ verf, r ≠ .accepted verf .success) : (Served.replied m).Refused := by
  intro m' heq xid' β res b
  obtain rfl := Served.replied.inj heq
  rw [hm]
  exact readReply_refused hfits hr xid' res b

theorem refused_acceptedError {xid stat : ℕ} (hxid : xid < 2 ^ 32) (hstat : stat < 2 ^ 32)
    (hzero : stat ≠ 0) (htwo : stat ≠ 2) : (Served.replied (acceptedErrorMsg xid stat)).Refused :=
  refused_reply (acceptedErrorMsg_eq hzero htwo) (fits_accepted hxid (fits_other hstat hzero htwo))
    (by simp)

/-- **Nothing but a call runs a procedure.** Whatever message arrives, it is a whole call of one of the
procedures, with its argument and nothing behind it, and is answered so; or the handler's state stays as it
is, and what is replied, if anything is, no client takes for the result of a call. -/
theorem only_calls_run {σ : Type} (S : Service σ) (m : List UInt8) (s : σ) :
    (∃ xid cred verf proc P a, S.procs proc = some P ∧ P.arg.Fits a ∧
      m = rpcMsg.put ⟨xid, .call ⟨2, S.prog, S.vers, proc, cred, verf⟩⟩ ++ P.arg.put a ∧
      S.receive m s = (.replied (successHdr xid ++ P.res.put (P.run a s).1), (P.run a s).2)) ∨
    ∃ o, S.receive m s = (o, s) ∧ o.Refused := by
  have hclosed : Served.closed.Refused := nofun
  have hignored : Served.ignored.Refused := nofun
  unfold Service.receive
  split_ifs with hshort
  · exact Or.inr ⟨_, rfl, hclosed⟩
  split
  · -- the message is a call
    unfold Service.dispatch
    split_ifs with hsize
    · exact Or.inr ⟨_, rfl, hclosed⟩
    split
    · exact Or.inr ⟨_, rfl, hignored⟩
    · exact Or.inr ⟨_, rfl, hignored⟩
    · rename_i xid c rest hget
      obtain ⟨hfits, hm⟩ := rpcMsg.put_get hget
      have hxid : xid < 2 ^ 32 := hfits.1
      split_ifs with hrpcvers hprog hvers
      · refine Or.inr ⟨_, rfl, refused_reply (rpcMismatchMsg_eq xid) (fits_denied hxid ?_) (by simp)⟩
        have htwo : 2 < 2 ^ 32 := by decide
        exact ⟨Nat.two_pow_pos 32, _, rfl, (2, 2), rfl, htwo, htwo⟩
      · exact Or.inr ⟨_, rfl, refused_acceptedError hxid (by decide) (by decide) (by decide)⟩
      · refine Or.inr ⟨_, rfl, refused_reply (progMismatchMsg_eq xid S.vers S.vers)
          (fits_accepted hxid (fits_progMismatch S.vers_lt S.vers_lt)) (by simp)⟩
      · split
        · exact Or.inr ⟨_, rfl, refused_acceptedError hxid (by decide) (by decide) (by decide)⟩
        · rename_i P hP
          have hgarbage : (Served.replied (acceptedErrorMsg xid 4)).Refused :=
            refused_acceptedError hxid (by decide) (by decide) (by decide)
          unfold Procedure.serve
          split
          · exact Or.inr ⟨_, rfl, hgarbage⟩
          · rename_i a rest' harg
            split_ifs with hrest
            · exact Or.inr ⟨_, rfl, hgarbage⟩
            · obtain ⟨ha, rfl⟩ := P.arg.put_get harg
              obtain rfl : rest' = [] := not_not.mp hrest
              obtain ⟨rpcvers, prog, vers, proc, cred, verf⟩ := c
              obtain rfl : rpcvers = 2 := not_not.mp hrpcvers
              obtain rfl : prog = S.prog := not_not.mp hprog
              obtain rfl : vers = S.vers := not_not.mp hvers
              rw [List.append_nil] at hm
              exact Or.inl ⟨xid, cred, verf, proc, P, a, hP, ha, hm, rfl⟩
  · exact Or.inr ⟨_, rfl, hignored⟩
  · exact Or.inr ⟨_, rfl, hclosed⟩

end Fred.Xdrpp
