/-
# Fred.Xdrpp.MsgSock -- messages read from a stream socket

`msg_sock::input` of `xdrpp/msgsock.cc`: the server's end of every connection. A call makes up to three
rounds; a round reads at most once, into the rest of the message and behind it into the next length, or
into the length alone. The kernel returns as little as it likes, a signal may interrupt it, and the
callback may delete the socket. The format of the stream is `format`, and the messages handed on are those
a reader of single bytes finds (`Inv`), so they depend on the bytes only and not on how they arrived
(`input_delivers`). Allocation is assumed to succeed.
-/
import Fred.Lib.BigEndian
import Fred.Lib.Framing
import Fred.Lib.Transition

namespace Fred.Xdrpp

open Fred.Framing Fred.Transition

/-! ## The socket -/

/-- `errno` when the callback is called with a null pointer. -/
inductive Errno where
  | success
  | connReset
  | tooBig
  | other
  deriving DecidableEq, Repr

/-- A call of `rcb_`. -/
inductive Received where
  | message (data : List UInt8)
  | nothing (errno : Errno)
  deriving DecidableEq, Repr

/-- What one call of `read` or `readv` meets: the kernel returns at most `limit` bytes, a signal comes, or
the connection fails. -/
inductive Attempt where
  | take (limit : ℕ)
  | interrupted
  | failed
  deriving DecidableEq, Repr

/-- `maxmsglen_`, and whether the callback deletes the socket after these calls. -/
structure Options where
  maxmsglen : ℕ
  deletes : List Received → Bool

/-- The reading part of a `msg_sock`. `nextlen` and the second component of `rdmsg` are what was read of
`nextlen_` and `rdmsg_`, so `rdpos_` is a length. -/
structure MsgSock where
  nextlen : List UInt8
  /-- `rdmsg_`: its size, and what was read of it. -/
  rdmsg : Option (ℕ × List UInt8)
  /-- A callback for reading is set in the poll set. -/
  registered : Bool
  destroyed : Bool
  received : List Received
  /-- The bytes that have arrived and were not read. -/
  inbox : List UInt8
  /-- The peer has closed its end; no more bytes arrive. -/
  closed : Bool
  /-- All bytes read so far. -/
  taken : List UInt8
  deriving DecidableEq, Repr

/-- What `read` returns. -/
inductive ReadResult where
  | bytes (chunk : List UInt8)
  | again
  | eof
  | failed

/-- Where a round of the loop ends: `return`, or on to the next round. -/
inductive Round where
  | done (s : MsgSock)
  | next (s : MsgSock)

def Round.state : Round → MsgSock
  | .done s => s
  | .next s => s

namespace MsgSock

def init : MsgSock := ⟨[], none, true, false, [], [], false, []⟩

/-- A `read` into `capacity` bytes. -/
def read (a : Attempt) (capacity : ℕ) (s : MsgSock) : ReadResult :=
  match a with
  | .interrupted => .again
  | .failed => .failed
  | .take limit =>
    if s.inbox = [] then (if s.closed then .eof else .again)
    else .bytes (s.inbox.take (max 1 (min limit capacity)))

def consume (chunk : List UInt8) (s : MsgSock) : MsgSock :=
  { s with inbox := s.inbox.drop chunk.length, taken := s.taken ++ chunk }

/-- `rcb_(..)`. -/
def call (O : Options) (r : Received) (s : MsgSock) : MsgSock :=
  { s with
    received := s.received ++ [r]
    destroyed := s.destroyed || O.deletes (s.received ++ [r]) }

/-- The end of a round: nothing while a message or its length is incomplete. -/
def openMessage (O : Options) (s : MsgSock) : Round :=
  if s.rdmsg.isSome ∨ s.nextlen.length < 4 then .done s
  else
    let len := BigEndian.value s.nextlen
    -- the high bit is missing: message fragments are unimplemented
    if len < 2 ^ 31 then .done (s.call O (.nothing .connReset))
    else
      let len := len % 2 ^ 31
      if len = 0 then .next ({ s with nextlen := [] }.call O (.message []))
      else if len ≤ O.maxmsglen then .next { s with nextlen := [], rdmsg := some (len, []) }
      else .next ({ s with registered := false }.call O (.nothing .tooBig))

/-- The start of a round that has a message to complete. -/
def readMessage (O : Options) (a : Attempt) (size : ℕ) (got : List UInt8) (s : MsgSock) : Round :=
  match s.read a (size - got.length + 4) with
  | .again => .done s
  | .eof => .done (s.call O (.nothing .connReset))
  | .failed => .done (s.call O (.nothing .other))
  | .bytes chunk =>
    let s := s.consume chunk
    let data := got ++ chunk
    if data.length < size then .next { s with rdmsg := some (size, data) }
    else
      let s := { s with rdmsg := none, nextlen := data.drop size }.call O (.message (data.take size))
      if s.destroyed then .done s else .next s

/-- The start of a round that has none. -/
def readLength (O : Options) (a : Attempt) (s : MsgSock) : Round :=
  if s.nextlen.length < 4 then
    match s.read a (4 - s.nextlen.length) with
    | .again => .done s
    | .eof => .done (s.call O (.nothing (if s.nextlen = [] then .success else .connReset)))
    | .failed => .done (s.call O (.nothing .other))
    | .bytes chunk => .next { s.consume chunk with nextlen := s.nextlen ++ chunk }
  else .next s

def round (O : Options) (a : Attempt) (s : MsgSock) : Round :=
  let start := match s.rdmsg with
    | some (size, got) => s.readMessage O a size got
    | none => s.readLength O a
  match start with
  | .done s => .done s
  | .next s => s.openMessage O

/-- The loop of `input`; a call of `read` past the listed attempts is not limited. -/
def inputLoop (O : Options) : ℕ → List Attempt → MsgSock → MsgSock
  | 0, _, s => s
  | n + 1, attempts, s =>
    if s.destroyed then s
    else
      match s.round O (attempts.headD (.take (2 ^ 32))) with
      | .done s => s
      | .next s => inputLoop O n attempts.tail s

def input (O : Options) (attempts : List Attempt) (s : MsgSock) : MsgSock :=
  s.inputLoop O 3 attempts

end MsgSock

/-- What happens to a socket: bytes arrive, the peer closes its end, or the poll set finds the socket
readable. -/
inductive SockEvent where
  | arrive (bytes : List UInt8)
  | close
  | readable (attempts : List Attempt)

def MsgSock.step (O : Options) (e : SockEvent) (s : MsgSock) : Except Empty MsgSock :=
  match e with
  | .arrive bytes => .ok (if s.closed then s else { s with inbox := s.inbox ++ bytes })
  | .close => .ok { s with closed := true }
  | .readable attempts => .ok (if s.registered && !s.destroyed then s.input O attempts else s)

/-! ## The format of the stream -/

/-- Record marking: four bytes, the high bit set, the rest the length of the message. -/
def format (O : Options) : Format UInt8 Errno where
  width := 4
  size header :=
    let len := BigEndian.value header
    if len < 2 ^ 31 then .error .connReset
    else if len % 2 ^ 31 ≤ O.maxmsglen then .ok (len % 2 ^ 31)
    else .error .tooBig
  width_pos := by decide

/-- What `message_t::alloc` puts in front of a message of less than `2 ^ 31` bytes, and the message. -/
def rawMessage (data : List UInt8) : List UInt8 :=
  BigEndian.bytes 4 (data.length + 2 ^ 31) ++ data

theorem isFrame_rawMessage {O : Options} {data : List UInt8} (hmax : data.length ≤ O.maxmsglen)
    (hsize : data.length < 2 ^ 31) : (format O).IsFrame data (rawMessage data) := by
  refine ⟨_, rfl, BigEndian.length_bytes _ _, ?_⟩
  have hvalue : BigEndian.value (BigEndian.bytes 4 (data.length + 2 ^ 31)) = data.length + 2 ^ 31 :=
    BigEndian.value_bytes_of_lt (by omega)
  simp only [format]
  rw [hvalue, if_neg (by omega), if_pos (by omega), Nat.add_mod_right, Nat.mod_eq_of_lt hsize]

/-! ## What is handed on -/

variable {O : Options} {s : MsgSock}

/-- The message of a call, if there is one. -/
def Received.data? : Received → Option (List UInt8)
  | .message data => some data
  | .nothing _ => none

/-- A reader of single bytes that has read what the socket has read: its state and its messages. -/
def MsgSock.reading (O : Options) (s : MsgSock) : State UInt8 Errno × List (List UInt8) :=
  (format O).feedAll (.header []) s.taken

/-- The messages handed to the callback. -/
def MsgSock.messages (s : MsgSock) : List (List UInt8) := s.received.filterMap Received.data?

/-- The socket is where the reader is. -/
inductive Stands (O : Options) (s : MsgSock) : State UInt8 Errno → Prop
  | header (hmsg : s.rdmsg = none) (hlt : s.nextlen.length < 4) : Stands O s (.header s.nextlen)
  | body {size : ℕ} {got : List UInt8} (hmsg : s.rdmsg = some (size, got)) (hnext : s.nextlen = [])
      (hlt : got.length < size) : Stands O s (.body size got)
  | refused {e : Errno} (hmsg : s.rdmsg = none) (hlen : s.nextlen.length = 4)
      (hsize : (format O).size s.nextlen = .error e) : Stands O s (.refused e)

/-- Why the callback was called without a message. -/
def Explained (O : Options) (s : MsgSock) (e : Errno) : Prop :=
  (s.reading O).1 = .refused e ∨ s.closed = true ∧ s.inbox = [] ∨ e = .other

/-- The messages handed on are those of the bytes read, and a deleted socket has handed on the first of
them. -/
structure Inv (O : Options) (s : MsgSock) : Prop where
  messages_prefix : s.messages <+: (s.reading O).2
  stands : s.destroyed = false → Stands O s (s.reading O).1 ∧ s.messages = (s.reading O).2
  explained : ∀ e, Received.nothing e ∈ s.received → Explained O s e
  registered : s.destroyed = false → s.registered = false → ∃ e, (s.reading O).1 = .refused e

namespace MsgSock

@[simp] theorem messages_call (r : Received) (s : MsgSock) :
    (s.call O r).messages = s.messages ++ r.data?.toList := by
  unfold messages call
  cases h : r.data? <;> simp [h]

@[simp] theorem reading_call (r : Received) (s : MsgSock) : (s.call O r).reading O = s.reading O := rfl

theorem reading_consume (chunk : List UInt8) (s : MsgSock) :
    (s.consume chunk).reading O =
      (((format O).feedAll (s.reading O).1 chunk).1,
        (s.reading O).2 ++ ((format O).feedAll (s.reading O).1 chunk).2) :=
  (format O).feedAll_append (.header []) s.taken chunk

/-- Bytes that were read came from the inbox. -/
theorem read_bytes {a : Attempt} {capacity : ℕ} {chunk : List UInt8}
    (h : s.read a capacity = .bytes chunk) (hcap : 0 < capacity) :
    s.inbox = chunk ++ s.inbox.drop chunk.length ∧ 0 < chunk.length ∧ chunk.length ≤ capacity := by
  unfold read at h
  cases a with
  | interrupted => cases h
  | failed => cases h
  | take limit =>
      simp only at h
      split_ifs at h with hempty
      have hpos : 0 < s.inbox.length := List.length_pos_iff.mpr hempty
      obtain rfl := ReadResult.bytes.inj h
      refine ⟨(List.prefix_iff_eq_append.mp (List.take_prefix _ _)).symm, ?_, ?_⟩
      · rw [List.length_take]
        omega
      · rw [List.length_take]
        omega

/-- What a step does to the bytes: those read are taken from the front of the inbox. -/
structure Reads (s s' : MsgSock) : Prop where
  stream_eq : s'.taken ++ s'.inbox = s.taken ++ s.inbox
  taken_mono : s.taken <+: s'.taken
  closed_eq : s'.closed = s.closed
  destroyed_of : s.destroyed = true → s'.destroyed = true

theorem Reads.refl (s : MsgSock) : Reads s s := ⟨rfl, List.prefix_rfl, rfl, id⟩

theorem Reads.trans {s' s'' : MsgSock} (h : Reads s s') (h' : Reads s' s'') : Reads s s'' :=
  ⟨h'.stream_eq.trans h.stream_eq, h.taken_mono.trans h'.taken_mono,
    h'.closed_eq.trans h.closed_eq, fun hd => h'.destroyed_of (h.destroyed_of hd)⟩

/-- Fields that `Reads` does not speak about may change. -/
theorem Reads.congr {s' s'' : MsgSock} (h : Reads s s') (htaken : s''.taken = s'.taken)
    (hinbox : s''.inbox = s'.inbox) (hclosed : s''.closed = s'.closed)
    (hdestroyed : s'.destroyed = true → s''.destroyed = true) : Reads s s'' := by
  refine ⟨?_, htaken ▸ h.taken_mono, hclosed.trans h.closed_eq,
    fun hd => hdestroyed (h.destroyed_of hd)⟩
  rw [htaken, hinbox]
  exact h.stream_eq

theorem reads_consume {chunk : List UInt8} (h : s.inbox = chunk ++ s.inbox.drop chunk.length) :
    Reads s (s.consume chunk) := by
  refine ⟨?_, List.prefix_append _ _, rfl, id⟩
  unfold consume
  simp only [List.append_assoc]
  rw [← h]

end MsgSock

open MsgSock

theorem MsgSock.Reads.refused {s' : MsgSock} (R : Reads s s') {e : Errno}
    (h : (s.reading O).1 = .refused e) : (s'.reading O).1 = .refused e := by
  obtain ⟨rest, hrest⟩ := R.taken_mono
  unfold MsgSock.reading at h ⊢
  rw [← hrest, (format O).feedAll_append, h]
  simp

theorem Explained.mono {s' : MsgSock} {e : Errno} (h : Explained O s e) (R : Reads s s') :
    Explained O s' e := by
  rcases h with hrefused | ⟨hclosed, hinbox⟩ | hother
  · exact Or.inl (R.refused hrefused)
  · obtain ⟨rest, hrest⟩ := R.taken_mono
    have hstream := R.stream_eq
    rw [← hrest, hinbox, List.append_nil, List.append_assoc] at hstream
    have hnil : rest ++ s'.inbox = [] := List.append_right_eq_self.mp hstream
    exact Or.inr (Or.inl ⟨R.closed_eq.trans hclosed, (List.append_eq_nil_iff.mp hnil).2⟩)
  · exact Or.inr (Or.inr hother)

theorem Stands.congr {s' : MsgSock} {st : State UInt8 Errno} (h : Stands O s st)
    (hmsg' : s'.rdmsg = s.rdmsg) (hnext' : s'.nextlen = s.nextlen) : Stands O s' st := by
  cases h with
  | header hmsg hlt =>
      rw [← hnext'] at hlt ⊢
      exact .header (hmsg'.trans hmsg) hlt
  | body hmsg hnext hlt => exact .body (hmsg'.trans hmsg) (hnext'.trans hnext) hlt
  | refused hmsg hlen hsize =>
      rw [← hnext'] at hlen hsize
      exact .refused (hmsg'.trans hmsg) hlen hsize

/-- The callback is told why there are no more messages. -/
theorem Inv.callNothing (I : Inv O s) {e : Errno} (he : Explained O s e) :
    Inv O (s.call O (.nothing e)) := by
  have hmessages : (s.call O (.nothing e)).messages = s.messages := by simp [Received.data?]
  refine ⟨?_, fun hd => ?_, fun x hx => ?_, fun hd => ?_⟩
  · rw [hmessages]
    exact I.messages_prefix
  · obtain ⟨hstands, heq⟩ := I.stands (Bool.or_eq_false_iff.mp hd).1
    exact ⟨hstands.congr rfl rfl, hmessages.trans heq⟩
  · rcases List.mem_append.mp hx with hx | hx
    · exact I.explained x hx
    · obtain rfl := Received.nothing.inj (List.mem_singleton.mp hx)
      exact he
  · exact I.registered (Bool.or_eq_false_iff.mp hd).1

/-- Bytes were read that complete no message. -/
theorem Inv.consumed {s' : MsgSock} (I : Inv O s) (hd : s.destroyed = false) (R : Reads s s')
    (hreceived : s'.received = s.received) (hregistered : s'.registered = s.registered)
    (hstands : Stands O s' (s'.reading O).1) (hmessages : (s'.reading O).2 = (s.reading O).2) :
    Inv O s' := by
  have heq : s'.messages = (s'.reading O).2 := by
    unfold MsgSock.messages
    rw [hreceived, hmessages]
    exact (I.stands hd).2
  refine ⟨heq ▸ List.prefix_rfl, fun _ => ⟨hstands, heq⟩, fun e he => ?_, fun _ hr => ?_⟩
  · exact (I.explained e (hreceived ▸ he)).mono R
  · obtain ⟨e, he⟩ := I.registered hd (hregistered ▸ hr)
    exact ⟨e, R.refused he⟩

/-- The start of a round has read something; the length behind the last message is to be looked at. -/
structure Between (O : Options) (s : MsgSock) : Prop where
  rdmsg_eq : s.rdmsg = none
  nextlen_le : s.nextlen.length ≤ 4
  state_eq : (s.reading O).1 = ((format O).feedAll (.header []) s.nextlen).1
  messages_eq : (s.reading O).2 = s.messages ++ ((format O).feedAll (.header []) s.nextlen).2
  explained : ∀ e, Received.nothing e ∈ s.received → Explained O s e
  registered : s.registered = false → ∃ e, (s.reading O).1 = .refused e

theorem inv_openMessage (h : s.rdmsg.isSome = true ∧ Inv O s ∨ Between O s) :
    Inv O (s.openMessage O).state := by
  unfold openMessage
  rcases h with ⟨hsome, I⟩ | B
  · rw [if_pos (Or.inl hsome)]
    exact I
  have hempty : ∀ n, n = s.nextlen.length → ([] : List UInt8).length + n = s.nextlen.length := by
    intro n hn
    rw [List.length_nil, hn, Nat.zero_add]
  have hstate := B.state_eq
  have hmessages := B.messages_eq
  dsimp only
  split_ifs with hopen hfragment hzero hfits
  · have hlt : s.nextlen.length < 4 := hopen.resolve_left (by simp [B.rdmsg_eq])
    have hfeed : (format O).feedAll (.header []) s.nextlen = (.header s.nextlen, []) :=
      (format O).feedAll_header_of_lt (by rw [hempty _ rfl]; exact hlt)
    rw [hfeed] at hstate hmessages
    rw [List.append_nil] at hmessages
    refine ⟨?_, fun _ => ⟨?_, hmessages.symm⟩, B.explained, fun _ => B.registered⟩
    · exact hmessages ▸ List.prefix_rfl
    · exact hstate ▸ .header B.rdmsg_eq hlt
  all_goals
    have hlen : s.nextlen.length = 4 := by
      have := B.nextlen_le
      omega
    have hfeed : (format O).feedAll (.header []) s.nextlen = (format O).begin s.nextlen :=
      (format O).feedAll_header_of_eq (format O).width_pos (by rw [hempty _ rfl]; exact hlen)
    have hsize : (format O).size s.nextlen =
        if BigEndian.value s.nextlen < 2 ^ 31 then .error .connReset
        else if BigEndian.value s.nextlen % 2 ^ 31 ≤ O.maxmsglen
          then .ok (BigEndian.value s.nextlen % 2 ^ 31) else .error .tooBig := rfl
    rw [hfeed] at hstate hmessages
    unfold Format.begin at hstate hmessages
  · rw [if_pos hfragment] at hsize
    rw [hsize] at hstate hmessages
    rw [List.append_nil] at hmessages
    refine Inv.callNothing ⟨?_, fun _ => ⟨?_, hmessages.symm⟩, B.explained, fun _ => B.registered⟩
      (Or.inl hstate)
    · exact hmessages ▸ List.prefix_rfl
    · exact hstate ▸ .refused B.rdmsg_eq hlen hsize
  · rw [if_neg hfragment, hzero, if_pos (Nat.zero_le _)] at hsize
    rw [hsize] at hstate hmessages
    have hcall : ({ s with nextlen := [] }.call O (.message [])).messages = s.messages ++ [[]] :=
      messages_call (.message []) _
    refine ⟨?_, fun _ => ⟨?_, ?_⟩, fun e he => ?_, fun _ => B.registered⟩
    · exact (hcall.trans hmessages.symm) ▸ List.prefix_rfl
    · exact hstate ▸ .header B.rdmsg_eq (Nat.zero_lt_succ 3)
    · exact hcall.trans hmessages.symm
    · exact B.explained e ((List.mem_append.mp he).resolve_right (by simp))
  · obtain ⟨n, hn⟩ := Nat.exists_eq_succ_of_ne_zero hzero
    rw [if_neg hfragment, if_pos hfits, hn] at hsize
    rw [hsize] at hstate hmessages
    rw [List.append_nil] at hmessages
    refine ⟨?_, fun _ => ⟨?_, hmessages.symm⟩, B.explained, fun _ => B.registered⟩
    · exact hmessages ▸ List.prefix_rfl
    · refine hstate ▸ .body ?_ rfl (Nat.succ_pos n)
      show some (_, []) = _
      rw [hn]
  · rw [if_neg hfragment, if_neg hfits] at hsize
    rw [hsize] at hstate hmessages
    rw [List.append_nil] at hmessages
    refine Inv.callNothing (s := { s with registered := false })
      ⟨?_, fun _ => ⟨?_, hmessages.symm⟩, B.explained, fun _ _ => ⟨_, hstate⟩⟩ (Or.inl hstate)
    · exact hmessages ▸ List.prefix_rfl
    · exact hstate ▸ .refused B.rdmsg_eq hlen hsize

theorem reads_call (r : Received) (s : MsgSock) : Reads s (s.call O r) :=
  (Reads.refl s).congr rfl rfl rfl fun hd => Bool.or_eq_true_iff.mpr (Or.inl hd)

/-- An end of the stream is met when everything was read. -/
theorem read_eof {a : Attempt} {capacity : ℕ} (h : MsgSock.read a capacity s = .eof) :
    s.closed = true ∧ s.inbox = [] := by
  unfold MsgSock.read at h
  cases a with
  | interrupted => cases h
  | failed => cases h
  | take limit =>
      simp only at h
      split_ifs at h with hempty hclosed
      exact ⟨hclosed, hempty⟩

/-- What the start of a round leaves. -/
inductive Started (O : Options) (s : MsgSock) : Round → Prop
  | done {s' : MsgSock} (inv : Inv O s') (reads : Reads s s') : Started O s (.done s')
  | next {s' : MsgSock} (inv : s'.rdmsg.isSome = true ∧ Inv O s' ∨ Between O s') (reads : Reads s s') :
      Started O s (.next s')

/-- **A round in the middle of a message.** -/
theorem started_readMessage (I : Inv O s) (hd : s.destroyed = false) {size : ℕ} {got : List UInt8}
    (hmsg : s.rdmsg = some (size, got)) (a : Attempt) : Started O s (s.readMessage O a size got) := by
  obtain ⟨hstands, hmessages⟩ := I.stands hd
  obtain ⟨hbody, hnext, hlt⟩ : (s.reading O).1 = .body size got ∧ s.nextlen = [] ∧
      got.length < size := by
    generalize (s.reading O).1 = st at hstands
    cases hstands with
    | header h _ => rw [hmsg] at h; cases h
    | refused h _ _ => rw [hmsg] at h; cases h
    | body h hnext hlt =>
        rw [hmsg] at h
        obtain ⟨rfl, rfl⟩ := Prod.mk.inj (Option.some.inj h)
        exact ⟨rfl, hnext, hlt⟩
  unfold readMessage
  rcases hread : s.read a (size - got.length + 4) with chunk | _ | _ | _
  · obtain ⟨hinbox, hpos, hcap⟩ := read_bytes hread (by omega)
    have R := reads_consume hinbox
    have hfeed := reading_consume (O := O) chunk s
    rw [hbody] at hfeed
    dsimp only
    by_cases hshort : (got ++ chunk).length < size
    · rw [if_pos hshort]
      have hlen := hshort
      rw [List.length_append] at hlen
      rw [(format O).feedAll_body_of_lt hlen, List.append_nil] at hfeed
      have R' : Reads s { s.consume chunk with rdmsg := some (size, got ++ chunk) } :=
        R.congr rfl rfl rfl id
      have hstate := congrArg Prod.fst hfeed
      have hsame := congrArg Prod.snd hfeed
      refine .next (Or.inl ⟨rfl, I.consumed hd R' rfl rfl ?_ hsame⟩) R'
      exact hstate ▸ .body rfl hnext hshort
    · rw [if_neg hshort]
      rw [List.length_append] at hshort
      -- the piece ends the message and goes on with the next length
      have hsplit : (format O).feedAll (.body size got) chunk =
          (((format O).feedAll (.header []) ((got ++ chunk).drop size)).1,
            (got ++ chunk).take size ::
              ((format O).feedAll (.header []) ((got ++ chunk).drop size)).2) := by
        have hhead : got ++ chunk.take (size - got.length) = (got ++ chunk).take size := by
          rw [List.take_append, List.take_of_length_le (Nat.le_of_lt hlt)]
        have htail : chunk.drop (size - got.length) = (got ++ chunk).drop size := by
          rw [List.drop_append, List.drop_eq_nil_of_le (Nat.le_of_lt hlt), List.nil_append]
        have hfull : got.length + (chunk.take (size - got.length)).length = size := by
          rw [List.length_take]
          omega
        calc (format O).feedAll (.body size got) chunk
            = (format O).feedAll (.body size got)
                (chunk.take (size - got.length) ++ chunk.drop (size - got.length)) := by
              rw [List.take_append_drop]
          _ = _ := by
              rw [(format O).feedAll_append, (format O).feedAll_body_of_eq hlt hfull, hhead, htail]
              rfl
      rw [hsplit] at hfeed
      have hcall : ({ s.consume chunk with
          rdmsg := none
          nextlen := (got ++ chunk).drop size }.call O (.message ((got ++ chunk).take size))).messages =
          s.messages ++ [(got ++ chunk).take size] := messages_call _ _
      have R' : Reads s ({ s.consume chunk with
          rdmsg := none
          nextlen := (got ++ chunk).drop size }.call O (.message ((got ++ chunk).take size))) :=
        R.congr rfl rfl rfl fun hd' => Bool.or_eq_true_iff.mpr (Or.inl hd')
      have hrest : ((got ++ chunk).drop size).length ≤ 4 := by
        rw [List.length_drop, List.length_append]
        omega
      have hexplained : ∀ e, Received.nothing e ∈
          s.received ++ [.message ((got ++ chunk).take size)] → Explained O (s.consume chunk) e :=
        fun e he => (I.explained e ((List.mem_append.mp he).resolve_right (by simp))).mono R
      have hregistered : s.registered = false → ∃ e, ((s.consume chunk).reading O).1 = .refused e := by
        intro hr
        obtain ⟨e, he⟩ := I.registered hd hr
        exact ⟨e, R.refused he⟩
      have hstate := congrArg Prod.fst hfeed
      have hdelivered := congrArg Prod.snd hfeed
      simp only at hdelivered
      rw [← hmessages, List.append_cons] at hdelivered
      split_ifs with hdeleted
      · refine .done ⟨?_, fun h => ?_, hexplained, fun _ => hregistered⟩ R'
        · rw [hcall]
          exact hdelivered ▸ List.prefix_append _ _
        · rw [hdeleted] at h
          cases h
      · refine .next (Or.inr ⟨rfl, hrest, hstate, ?_, hexplained, hregistered⟩) R'
        rw [hcall]
        exact hdelivered
  · exact .done I (Reads.refl s)
  · exact .done (I.callNothing (Or.inr (Or.inl (read_eof hread)))) (reads_call _ s)
  · exact .done (I.callNothing (Or.inr (Or.inr rfl))) (reads_call _ s)

/-- **A round that waits for a length.** -/
theorem started_readLength (I : Inv O s) (hd : s.destroyed = false) (hmsg : s.rdmsg = none)
    (a : Attempt) : Started O s (s.readLength O a) := by
  obtain ⟨hstands, hmessages⟩ := I.stands hd
  unfold readLength
  by_cases hlt : s.nextlen.length < 4
  · rw [if_pos hlt]
    have hstate : (s.reading O).1 = .header s.nextlen := by
      generalize (s.reading O).1 = st at hstands
      cases hstands with
      | header _ _ => rfl
      | body h _ _ => rw [hmsg] at h; cases h
      | refused _ hlen _ => omega
    rcases hread : s.read a (4 - s.nextlen.length) with chunk | _ | _ | _
    · obtain ⟨hinbox, hpos, hcap⟩ := read_bytes hread (by omega)
      have R := reads_consume hinbox
      have hfeed := reading_consume (O := O) chunk s
      -- a reader that has the first bytes of a length would be here with all of them
      have hhead : (format O).feedAll (.header []) s.nextlen = (.header s.nextlen, []) :=
        (format O).feedAll_header_of_lt (by rw [List.length_nil, Nat.zero_add]; exact hlt)
      have hjoin : (format O).feedAll (.header []) (s.nextlen ++ chunk) =
          (format O).feedAll (.header s.nextlen) chunk := by
        rw [(format O).feedAll_append, hhead]
        rfl
      rw [hstate, ← hjoin, ← hmessages] at hfeed
      have hstate' := congrArg Prod.fst hfeed
      have hmessages' := congrArg Prod.snd hfeed
      have R' : Reads s { s.consume chunk with nextlen := s.nextlen ++ chunk } :=
        R.congr rfl rfl rfl id
      refine .next (Or.inr ⟨hmsg, ?_, hstate', hmessages',
        fun e he => (I.explained e he).mono R', fun hr => ?_⟩) R'
      · show (s.nextlen ++ chunk).length ≤ 4
        rw [List.length_append]
        omega
      · obtain ⟨e, he⟩ := I.registered hd hr
        exact ⟨e, R'.refused he⟩
    · exact .done I (Reads.refl s)
    · exact .done (I.callNothing (Or.inr (Or.inl (read_eof hread)))) (reads_call _ s)
    · exact .done (I.callNothing (Or.inr (Or.inr rfl))) (reads_call _ s)
  · -- a length that was refused is looked at again
    rw [if_neg hlt]
    obtain ⟨e, hstate, hlen, hsize⟩ : ∃ e, (s.reading O).1 = .refused e ∧ s.nextlen.length = 4 ∧
        (format O).size s.nextlen = .error e := by
      generalize (s.reading O).1 = st at hstands
      cases hstands with
      | header _ h => exact absurd h hlt
      | body h _ _ => rw [hmsg] at h; cases h
      | refused _ hlen hsize => exact ⟨_, rfl, hlen, hsize⟩
    have hbegin : (format O).feedAll (.header []) s.nextlen = (.refused e, []) := by
      have hrefused := (format O).feedAll_refused_header hlen hsize []
      rwa [List.append_nil] at hrefused
    refine .next (Or.inr ⟨hmsg, hlen.le, ?_, ?_, I.explained, I.registered hd⟩) (Reads.refl s)
    · rw [hbegin, hstate]
    · rw [hbegin, ← hmessages, List.append_nil]

theorem reads_openMessage (O : Options) (s : MsgSock) : Reads s (s.openMessage O).state := by
  have hcall : ∀ {t : MsgSock} (r : Received), Reads s t → Reads s (t.call O r) :=
    fun r R => R.trans (reads_call r _)
  have hsame : ∀ {t : MsgSock}, t.taken = s.taken → t.inbox = s.inbox → t.closed = s.closed →
      t.destroyed = s.destroyed → Reads s t :=
    fun h₁ h₂ h₃ h₄ => (Reads.refl s).congr h₁ h₂ h₃ fun hd => h₄.trans hd
  unfold openMessage
  dsimp only
  split_ifs
  · exact Reads.refl s
  · exact reads_call _ s
  · exact hcall _ (hsame rfl rfl rfl rfl)
  · exact hsame rfl rfl rfl rfl
  · exact hcall _ (hsame rfl rfl rfl rfl)

theorem started_round (I : Inv O s) (hd : s.destroyed = false) (a : Attempt) :
    Inv O (s.round O a).state ∧ Reads s (s.round O a).state := by
  have hstarted : Started O s (match s.rdmsg with
      | some (size, got) => s.readMessage O a size got
      | none => s.readLength O a) := by
    rcases hmsg : s.rdmsg with _ | ⟨size, got⟩
    · exact started_readLength I hd hmsg a
    · exact started_readMessage I hd hmsg a
  unfold MsgSock.round
  dsimp only
  generalize (match s.rdmsg with
      | some (size, got) => s.readMessage O a size got
      | none => s.readLength O a) = start at hstarted
  cases hstarted with
  | done inv reads => exact ⟨inv, reads⟩
  | next inv reads => exact ⟨inv_openMessage inv, reads.trans (reads_openMessage O _)⟩

theorem inv_inputLoop : ∀ (n : ℕ) (attempts : List Attempt) {s : MsgSock}, Inv O s →
    Inv O (s.inputLoop O n attempts) ∧ Reads s (s.inputLoop O n attempts)
  | 0, _, s, I => ⟨I, Reads.refl s⟩
  | n + 1, attempts, s, I => by
      unfold inputLoop
      split_ifs with hd
      · exact ⟨I, Reads.refl s⟩
      obtain ⟨I', R⟩ := started_round I (Bool.not_eq_true _ ▸ hd)
        (attempts.headD (.take (2 ^ 32)))
      generalize s.round O (attempts.headD (.take (2 ^ 32))) = r at I' R
      cases r with
      | done t => exact ⟨I', R⟩
      | next t =>
          obtain ⟨I'', R'⟩ := inv_inputLoop n attempts.tail I'
          exact ⟨I'', R.trans R'⟩

/-- What was handed on stays handed on. -/
theorem received_prefix_inputLoop : ∀ (n : ℕ) (attempts : List Attempt) (s : MsgSock),
    s.received <+: (s.inputLoop O n attempts).received
  | 0, _, s => List.prefix_rfl
  | n + 1, attempts, s => by
      have hopen : ∀ t : MsgSock, t.received <+: (t.openMessage O).state.received := by
        intro t
        unfold openMessage
        dsimp only
        split_ifs
        · exact List.prefix_rfl
        · exact List.prefix_append _ _
        · exact List.prefix_append _ _
        · exact List.prefix_rfl
        · exact List.prefix_append _ _
      have hround : s.received <+: (s.round O (attempts.headD (.take (2 ^ 32)))).state.received := by
        unfold MsgSock.round
        rcases s.rdmsg with _ | ⟨size, got⟩
        · unfold readLength
          by_cases hlt : s.nextlen.length < 4
          · simp only [if_pos hlt]
            cases s.read (attempts.headD (.take (2 ^ 32))) (4 - s.nextlen.length) with
            | again => exact List.prefix_rfl
            | eof => exact List.prefix_append _ _
            | failed => exact List.prefix_append _ _
            | bytes chunk => exact hopen { s.consume chunk with nextlen := s.nextlen ++ chunk }
          · simp only [if_neg hlt]
            exact hopen s
        · unfold readMessage
          dsimp only
          cases s.read (attempts.headD (.take (2 ^ 32))) (size - got.length + 4) with
          | again => exact List.prefix_rfl
          | eof => exact List.prefix_append _ _
          | failed => exact List.prefix_append _ _
          | bytes chunk =>
              dsimp only
              split_ifs
              · exact hopen { s.consume chunk with rdmsg := some (size, got ++ chunk) }
              · exact List.prefix_append _ _
              · let t := { s.consume chunk with rdmsg := none, nextlen := (got ++ chunk).drop size }
                have hcall : s.received <+: (t.call O (.message ((got ++ chunk).take size))).received :=
                  List.prefix_append _ _
                exact hcall.trans (hopen _)
      unfold inputLoop
      split_ifs
      · exact List.prefix_rfl
      generalize s.round O (attempts.headD (.take (2 ^ 32))) = r at hround
      cases r with
      | done t => exact hround
      | next t => exact hround.trans (received_prefix_inputLoop n attempts.tail t)

/-- The bytes read by an event, and the messages it hands on. -/
theorem readable_spec {attempts : List Attempt} {s' : MsgSock} (I : Inv O s)
    (h : s.step O (.readable attempts) = .ok s') : Reads s s' ∧ s.messages <+: s'.messages := by
  obtain rfl := Except.ok.inj h
  split_ifs
  · exact ⟨(inv_inputLoop 3 attempts I).2,
      (received_prefix_inputLoop 3 attempts s).filterMap Received.data?⟩
  · exact ⟨Reads.refl s, List.prefix_rfl⟩

theorem Inv.init (O : Options) : Inv O .init :=
  ⟨List.prefix_rfl, fun _ => ⟨.header rfl (Nat.zero_lt_succ 3), rfl⟩, fun _ h => (by cases h),
    fun _ h => (by cases h)⟩

/-- **Step lemma.** -/
theorem Inv.step {e : SockEvent} {s' : MsgSock} (I : Inv O s) (h : s.step O e = .ok s') :
    Inv O s' := by
  cases e with
  | arrive bytes =>
      obtain rfl := Except.ok.inj h
      split_ifs with hclosed
      · exact I
      · refine ⟨I.messages_prefix, fun hd => ?_, fun e he => ?_, I.registered⟩
        · obtain ⟨hstands, hmessages⟩ := I.stands hd
          exact ⟨hstands.congr rfl rfl, hmessages⟩
        · rcases I.explained e he with hrefused | ⟨hclosed', -⟩ | hother
          · exact Or.inl hrefused
          · exact absurd hclosed' hclosed
          · exact Or.inr (Or.inr hother)
  | close =>
      obtain rfl := Except.ok.inj h
      refine ⟨I.messages_prefix, fun hd => ?_, fun e he => ?_, I.registered⟩
      · obtain ⟨hstands, hmessages⟩ := I.stands hd
        exact ⟨hstands.congr rfl rfl, hmessages⟩
      · rcases I.explained e he with hrefused | ⟨-, hinbox⟩ | hother
        · exact Or.inl hrefused
        · exact Or.inr (Or.inl ⟨rfl, hinbox⟩)
        · exact Or.inr (Or.inr hother)
  | readable attempts =>
      obtain rfl := Except.ok.inj h
      split_ifs
      · exact (inv_inputLoop 3 attempts I).1
      · exact I

/-! ## Everything is handed on -/

theorem read_take (limit capacity : ℕ) (hinbox : s.inbox ≠ []) :
    ∃ chunk, MsgSock.read (.take limit) capacity s = .bytes chunk ∧ 0 < chunk.length := by
  have hpos : 0 < s.inbox.length := List.length_pos_iff.mpr hinbox
  refine ⟨_, if_neg hinbox, ?_⟩
  rw [List.length_take]
  omega

/-- A round that is not interrupted reads something. -/
theorem taken_lt_round (I : Inv O s) (hd : s.destroyed = false) (hinbox : s.inbox ≠ [])
    (hrefused : ∀ e, (s.reading O).1 ≠ .refused e) (limit : ℕ) :
    s.taken.length < (s.round O (.take limit)).state.taken.length := by
  have hstands := (I.stands hd).1
  have htail : ∀ t : MsgSock, s.taken.length < t.taken.length →
      s.taken.length < (t.openMessage O).state.taken.length := fun t ht =>
    Nat.lt_of_lt_of_le ht (reads_openMessage O t).taken_mono.length_le
  have hconsume : ∀ chunk : List UInt8, 0 < chunk.length →
      s.taken.length < (s.consume chunk).taken.length := by
    intro chunk hpos
    show _ < (s.taken ++ chunk).length
    rw [List.length_append]
    omega
  unfold MsgSock.round
  rcases hmsg : s.rdmsg with _ | ⟨size, got⟩
  · have hlt : s.nextlen.length < 4 := by
      generalize (s.reading O).1 = st at hstands hrefused
      cases hstands with
      | header _ hlt => exact hlt
      | body h _ _ => rw [hmsg] at h; cases h
      | refused _ _ _ => exact absurd rfl (hrefused _)
    obtain ⟨chunk, hread, hpos⟩ := read_take limit (4 - s.nextlen.length) hinbox
    unfold readLength
    simp only [if_pos hlt, hread]
    exact htail _ (hconsume chunk hpos)
  · obtain ⟨chunk, hread, hpos⟩ := read_take limit (size - got.length + 4) hinbox
    unfold readMessage
    simp only [hread]
    split_ifs
    · exact htail _ (hconsume chunk hpos)
    · exact hconsume chunk hpos
    · exact htail _ (hconsume chunk hpos)

theorem taken_lt_input (I : Inv O s) (hd : s.destroyed = false) (hinbox : s.inbox ≠ [])
    (hrefused : ∀ e, (s.reading O).1 ≠ .refused e) (limit : ℕ) (attempts : List Attempt) :
    s.taken.length < (s.input O (.take limit :: attempts)).taken.length := by
  have hround := taken_lt_round I hd hinbox hrefused limit
  obtain ⟨I', -⟩ := started_round I hd (.take limit)
  unfold input inputLoop
  rw [if_neg (by rw [hd]; exact Bool.false_ne_true), List.headD_cons, List.tail_cons]
  generalize s.round O (.take limit) = r at hround I'
  cases r with
  | done t => exact hround
  | next t =>
      exact Nat.lt_of_lt_of_le hround (inv_inputLoop 2 attempts I').2.taken_mono.length_le

/-- Readable events one after the other. -/
theorem exists_readable : ∀ (calls : List (List Attempt)) {s : MsgSock}, Inv O s →
    ∃ s', runList (MsgSock.step O) (calls.map .readable) s = .ok s' ∧ Inv O s' ∧ Reads s s' ∧
      ((∀ attempts ∈ calls, ∃ limit rest, attempts = .take limit :: rest) → s'.destroyed = false →
        (∀ e, (s'.reading O).1 ≠ .refused e) → s'.inbox.length ≤ s.inbox.length - calls.length)
  | [], s, I => ⟨s, rfl, I, Reads.refl s, fun _ _ _ => Nat.le_refl _⟩
  | attempts :: calls, s, I => by
      obtain ⟨t, ht, I₁, R₁, hread⟩ : ∃ t, s.step O (.readable attempts) = .ok t ∧ Inv O t ∧
          Reads s t ∧ (s.registered = true → s.destroyed = false → t = s.input O attempts) := by
        refine ⟨_, rfl, ?_, ?_, fun hr hd => by rw [hr, hd]; rfl⟩
        · split_ifs
          · exact (inv_inputLoop 3 attempts I).1
          · exact I
        · split_ifs
          · exact (inv_inputLoop 3 attempts I).2
          · exact Reads.refl s
      obtain ⟨s', hs', I', R', hlen⟩ := exists_readable calls I₁
      refine ⟨s', ?_, I', R₁.trans R', fun htake hd hrefused => ?_⟩
      · simp only [List.map_cons, runList, ht]
        exact hs'
      have hle := hlen (fun as has => htake as (List.mem_cons_of_mem _ has)) hd hrefused
      have hd₀ : s.destroyed = false := by
        rw [← Bool.not_eq_true]
        intro h
        rw [(R₁.trans R').destroyed_of h] at hd
        cases hd
      have hrefused₀ : ∀ e, (s.reading O).1 ≠ .refused e :=
        fun e he => hrefused e ((R₁.trans R').refused he)
      have hstream := congrArg List.length R₁.stream_eq
      rw [List.length_append, List.length_append] at hstream
      by_cases hinbox : s.inbox = []
      · have hnil : s.inbox.length = 0 := by rw [hinbox]; rfl
        have := R₁.taken_mono.length_le
        omega
      · obtain ⟨limit, rest, rfl⟩ := htake attempts List.mem_cons_self
        have hr : s.registered = true := by
          rw [← Bool.not_eq_false]
          intro h
          obtain ⟨e, he⟩ := I.registered hd₀ h
          exact hrefused₀ e he
        have hlt := taken_lt_input I hd₀ hinbox hrefused₀ limit rest
        rw [← hread hr hd₀] at hlt
        rw [List.length_cons]
        omega

/-- **Messages do not depend on how their bytes arrive.** Whatever arrives on a socket, in whatever pieces
the kernel hands it over, the messages handed on are the first ones in the bytes read, and all of them unless
the callback has deleted the socket. A call without a message means that the stream is refused there, has
ended, or that the connection failed. After as many readable events as bytes are waiting all messages of the
stream have been handed on. -/
theorem input_delivers (h : Reach (MsgSock.step O) anyInput .init s) :
    s.messages <+: (s.reading O).2 ∧
    (s.destroyed = false → s.messages = (s.reading O).2) ∧
    (∀ e, Received.nothing e ∈ s.received →
      (s.reading O).1 = .refused e ∨ s.closed = true ∧ s.inbox = [] ∨ e = .other) ∧
    ∀ calls : List (List Attempt), s.inbox.length ≤ calls.length →
      (∀ attempts ∈ calls, ∃ limit rest, attempts = .take limit :: rest) →
      ∃ s', runList (MsgSock.step O) (calls.map .readable) s = .ok s' ∧ (s'.destroyed = true ∨
        s'.messages = ((format O).feedAll (.header []) (s.taken ++ s.inbox)).2) := by
  have I : Inv O s := h.invariant (Inv.init O) fun _ _ _ I _ hs => I.step hs
  refine ⟨I.messages_prefix, fun hd => (I.stands hd).2, I.explained, fun calls hlen htake => ?_⟩
  obtain ⟨s', hs', I', R, hread⟩ := exists_readable calls I
  refine ⟨s', hs', ?_⟩
  rcases hd : s'.destroyed with _ | _
  · right
    rw [(I'.stands hd).2, ← R.stream_eq, (format O).feedAll_append]
    -- what is still unread is behind a length that was refused
    by_cases hrefused : ∃ e, (s'.reading O).1 = .refused e
    · obtain ⟨e, he⟩ := hrefused
      unfold MsgSock.reading at he ⊢
      rw [he, (format O).feedAll_refused, List.append_nil]
    · have hle := hread htake hd fun e he => hrefused ⟨e, he⟩
      have hnil : s'.inbox = [] := List.length_eq_zero_iff.mp (by omega)
      rw [hnil]
      exact (List.append_nil _).symm
  · exact Or.inl rfl

/-! ### Two messages in pieces -/

/-- A message of two bytes and an empty one: five bytes arrive, then the rest. -/
def inPieces : List SockEvent :=
  let stream := rawMessage [104, 105] ++ rawMessage []
  [.arrive (stream.take 5), .readable [.take 3, .interrupted], .readable [.take 9],
    .arrive (stream.drop 5), .readable [], .readable []]

/-- Both messages are handed on, though no read has returned one of them. -/
theorem input_delivers_pieces : ∃ s, Reach (MsgSock.step ⟨100, fun _ => false⟩) anyInput .init s ∧
    s.messages = [[104, 105], []] ∧ (s.reading ⟨100, fun _ => false⟩).2 = [[104, 105], []] := by
  have hrun : ((runListIf (MsgSock.step ⟨100, fun _ => false⟩) (fun _ _ => true) inPieces .init).map
      fun s => (s.messages, s.destroyed)) = some ([[104, 105], []], false) := by decide +kernel
  obtain ⟨s, hs, heq⟩ := Option.map_eq_some_iff.mp hrun
  obtain ⟨hmessages, hd⟩ := Prod.mk.inj heq
  have hreach : Reach (MsgSock.step ⟨100, fun _ => false⟩) anyInput .init s :=
    Reach.of_runListIf (fun _ _ _ => trivial) hs
  obtain ⟨-, hall, -, -⟩ := input_delivers hreach
  exact ⟨s, hreach, hmessages, (hall hd).symm.trans hmessages⟩

end Fred.Xdrpp
