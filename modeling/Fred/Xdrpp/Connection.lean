/-
# Fred.Xdrpp.Connection -- a connection, and the blocking reader

A writer (`Fred.Xdrpp.WriteQueue`) and a reader (`Fred.Xdrpp.MsgSock`) with a network between them that
keeps the order of the bytes and delays them at will. In every interleaving the messages handed on are the
first ones that were put in, and all of them once everything has been written, carried and read
(`messages_in_order`).

A client reads its replies with `read_message` of `xdrpp/srpc.cc` instead. That tests `len & 3` before the
bytes are swapped, so on a little-endian machine it looks at the highest byte of the length and not at the
lowest: messages of any length modulo four pass, and those between 16 and 64 MiB, among others, are refused
(`read_message_iff`).
-/
import Fred.Xdrpp.WriteQueue

namespace Fred.Xdrpp

open Fred.Framing Fred.Transition

/-! ## Both ends -/

structure Connection where
  writer : WriteQueue
  /-- Bytes on their way. -/
  flight : List UInt8
  reader : MsgSock

/-- One end acts, some bytes arrive, or the writer's end is closed when all of its bytes have arrived. -/
inductive ConnectionEvent where
  | write (e : WriteEvent)
  | carry (n : ℕ)
  | close
  | read (attempts : List Attempt)

namespace Connection

def init : Connection := ⟨.init, [], .init⟩

/-- What the reader's end does; it does not fail. -/
def readerStep (O : Options) (e : SockEvent) (c : Connection) : Connection :=
  match c.reader.step O e with
  | .ok s => { c with reader := s }

def step (O : Options) (e : ConnectionEvent) (c : Connection) : Except PopError Connection :=
  match e with
  | .write e =>
    if c.reader.closed then .ok c
    else
      match c.writer.step e with
      | .error e => .error e
      | .ok w => .ok { c with writer := w, flight := c.flight ++ w.sent.drop c.writer.sent.length }
  | .carry n => .ok ({ c with flight := c.flight.drop n }.readerStep O (.arrive (c.flight.take n)))
  | .close => .ok (if c.flight = [] then c.readerStep O .close else c)
  | .read attempts => .ok (c.readerStep O (.readable attempts))

end Connection

/-! ## Order across the connection -/

variable {O : Options} {c : Connection}

/-- Both ends are in a state they reach, and the bytes sent are those read, those waiting and those on their
way. -/
structure ConnectionInv (O : Options) (c : Connection) : Prop where
  writer : Reach WriteQueue.step anyInput .init c.writer
  reader : Reach (MsgSock.step O) anyInput .init c.reader
  stream_eq : c.writer.sent = c.reader.taken ++ c.reader.inbox ++ c.flight
  flight_eq : c.reader.closed = true → c.flight = []

theorem inv_of_reach_reader {s : MsgSock} (h : Reach (MsgSock.step O) anyInput .init s) : Inv O s :=
  h.invariant (Inv.init O) fun _ _ _ I _ hs => I.step hs

/-- **Step lemma.** -/
theorem ConnectionInv.step {e : ConnectionEvent} {c' : Connection} (I : ConnectionInv O c)
    (h : c.step O e = .ok c') : ConnectionInv O c' := by
  cases e with
  | write e =>
      unfold Connection.step at h
      dsimp only at h
      split_ifs at h with hclosed
      · exact Except.ok.inj h ▸ I
      · obtain ⟨w, hw, -, ⟨rest, hrest⟩, -⟩ := (writeInv_of_reach I.writer).step e
        rw [hw] at h
        obtain rfl := Except.ok.inj h
        refine ⟨I.writer.tail trivial hw, I.reader, ?_, fun h => absurd h hclosed⟩
        show w.sent = c.reader.taken ++ c.reader.inbox ++ (c.flight ++ w.sent.drop c.writer.sent.length)
        rw [← hrest, List.drop_left, ← List.append_assoc, ← I.stream_eq]
  | carry n =>
      obtain rfl := Except.ok.inj h
      refine ⟨I.writer, I.reader.tail trivial (i := .arrive (c.flight.take n)) rfl, ?_, fun h => ?_⟩
      · show c.writer.sent = _ ++ _ ++ c.flight.drop n
        unfold Connection.readerStep MsgSock.step
        dsimp only
        split_ifs with hclosed
        · rw [I.stream_eq, I.flight_eq hclosed, List.drop_nil]
        · rw [List.append_assoc, List.append_assoc, List.take_append_drop, ← List.append_assoc]
          exact I.stream_eq
      · have hclosed : c.reader.closed = true := by
          unfold Connection.readerStep MsgSock.step at h
          dsimp only at h
          split_ifs at h with hclosed
          · exact hclosed
          · exact h
        show c.flight.drop n = []
        rw [I.flight_eq hclosed, List.drop_nil]
  | close =>
      obtain rfl := Except.ok.inj h
      split_ifs with hflight
      · exact ⟨I.writer, I.reader.tail trivial (i := .close) rfl, I.stream_eq, fun _ => hflight⟩
      · exact I
  | read attempts =>
      obtain rfl := Except.ok.inj h
      have R : MsgSock.Reads c.reader (c.readerStep O (.readable attempts)).reader := by
        unfold Connection.readerStep MsgSock.step
        dsimp only
        split_ifs
        · exact (inv_inputLoop 3 attempts (inv_of_reach_reader I.reader)).2
        · exact MsgSock.Reads.refl _
      refine ⟨I.writer, I.reader.tail trivial (i := .readable attempts) rfl, ?_, fun h => ?_⟩
      · exact (R.stream_eq ▸ I.stream_eq :)
      · exact I.flight_eq (R.closed_eq ▸ h)

/-- **Messages arrive in order.** In every interleaving of writing, carrying and reading: the messages
handed on are the first ones that were put in. No message is too long, so nothing is refused, and a call
without a message means that the writer's end is closed and everything was read, or that the connection
failed. When a writer that has not failed has nothing left, nothing is on its way and the reader, which is
not destroyed, has nothing unread, all messages have been handed on. -/
theorem messages_in_order (h : Reach (Connection.step O) anyInput .init c)
    (hsize : ∀ m ∈ c.writer.accepted, m.length < 2 ^ 31 ∧ m.length ≤ O.maxmsglen) :
    c.reader.messages <+: c.writer.accepted ∧
    (∀ e, Received.nothing e ∈ c.reader.received →
      c.reader.closed = true ∧ c.reader.inbox = [] ∨ e = .other) ∧
    (c.writer.wfail = false → c.writer.wsize = 0 → c.flight = [] → c.reader.inbox = [] →
      c.reader.destroyed = false → c.reader.messages = c.writer.accepted) := by
  have I : ConnectionInv O c := by
    refine h.invariant (I := ConnectionInv O) ?_ fun _ _ _ I _ hs => I.step hs
    exact ⟨Reach.refl _, Reach.refl _, rfl, fun h => by cases h⟩
  have R := inv_of_reach_reader I.reader
  have W := writeInv_of_reach I.writer
  -- a reader of all that is sent finds the messages
  have hwhole : (format O).feedAll (.header []) (c.writer.accepted.flatMap rawMessage) =
      (.header [], c.writer.accepted) :=
    (format O).feedAll_frames fun m hm => isFrame_rawMessage (hsize m hm).2 (hsize m hm).1
  have htaken : c.reader.taken <+: c.writer.accepted.flatMap rawMessage := by
    refine List.IsPrefix.trans ?_ W.sent_prefix
    rw [I.stream_eq, List.append_assoc]
    exact List.prefix_append _ _
  refine ⟨?_, fun e he => ?_, fun hf hzero hflight hinbox hd => ?_⟩
  · have hfound := (format O).delivered_mono (.header []) htaken
    rw [hwhole] at hfound
    exact R.messages_prefix.trans hfound
  · rcases R.explained e he with hrefused | hend
    · exfalso
      obtain ⟨rest, hrest⟩ := htaken
      unfold MsgSock.reading at hrefused
      rw [← hrest, (format O).feedAll_append, hrefused, (format O).feedAll_refused] at hwhole
      cases (Prod.mk.inj hwhole).1
    · exact hend
  · obtain ⟨A, hstream⟩ := W.accounts hf
    have hunsent : c.writer.unsent = [] := List.length_eq_zero_iff.mp (A.wsize_eq ▸ hzero)
    have heq : c.writer.sent = c.writer.accepted.flatMap rawMessage := by
      rw [← hstream, hunsent, List.append_nil]
    have hread : c.reader.taken = c.writer.accepted.flatMap rawMessage := by
      rw [← heq, I.stream_eq, hinbox, hflight, List.append_nil, List.append_nil]
    rw [(R.stands hd).2]
    unfold MsgSock.reading
    rw [hread, hwhole]

/-! ### A connection -/

/-- Two messages: the first is written in two pieces, and the bytes arrive in two others. -/
def twoCarried : List ConnectionEvent :=
  [.write (.putmsg [104, 105] (.takes 3)), .carry 2, .write (.putmsg [] .again), .read [.take 4],
    .write (.writable (.takes 8)), .carry 8, .read [.take 4], .read [.interrupted, .take 9],
    .read [.take 9]]

/-- Both messages arrive. -/
theorem messages_in_order_two : ∃ c, Reach (Connection.step ⟨100, fun _ => false⟩) anyInput .init c ∧
    c.reader.messages = [[104, 105], []] ∧ c.reader.messages <+: c.writer.accepted := by
  have hrun : ((runListIf (Connection.step ⟨100, fun _ => false⟩) (fun _ _ => true) twoCarried .init).map
      fun c => (c.reader.messages, c.writer.accepted)) = some ([[104, 105], []], [[104, 105], []]) := by
    decide +kernel
  obtain ⟨c, hc, heq⟩ := Option.map_eq_some_iff.mp hrun
  obtain ⟨hmessages, haccepted⟩ := Prod.mk.inj heq
  have hreach : Reach (Connection.step ⟨100, fun _ => false⟩) anyInput .init c :=
    Reach.of_runListIf (fun _ _ _ => trivial) hc
  have hsize : ∀ m ∈ c.writer.accepted, m.length < 2 ^ 31 ∧ m.length ≤ 100 := by
    rw [haccepted]
    simp
  exact ⟨c, hreach, hmessages, (messages_in_order hreach hsize).1⟩

/-! ## The blocking reader -/

/-- What `read_message` throws. -/
inductive SrpcError where
  | systemError
  | badMessageSize (what : String)
  deriving DecidableEq, Repr

/-- `read_message` of a socket that will yield `stream` and then end, or fail: the message, and what is left
of the stream. `fullread` waits for as many bytes as it was asked for. -/
def readMessage (fails : Bool) (stream : List UInt8) : Except SrpcError (List UInt8 × List UInt8) :=
  let premature := if fails then .systemError else .badMessageSize "read_message: premature EOF"
  let header := stream.take 4
  if header.length < 4 then .error premature
  -- the bytes are not swapped yet: the first one is the lowest
  else if BigEndian.value header.reverse % 4 ≠ 0 then
    .error (.badMessageSize "read_message: received size not multiple of 4")
  else
    let len := BigEndian.value header
    if len < 2 ^ 31 then
      .error (.badMessageSize "read_message: message fragments unimplemented")
    else
      let len := len % 2 ^ 31
      let m := (stream.drop 4).take len
      if m.length < len then .error premature else .ok (m, (stream.drop 4).drop len)

/-- The lowest bits of the first byte are those of the length divided by `2 ^ 24`. -/
theorem value_reverse_mod {header : List UInt8} (h : header.length = 4) :
    BigEndian.value header.reverse % 4 = BigEndian.value header / 2 ^ 24 % 4 := by
  match header, h with
  | [b₀, b₁, b₂, b₃], _ =>
      have h₁ := b₁.toNat_lt
      have h₂ := b₂.toNat_lt
      have h₃ := b₃.toNat_lt
      simp only [List.reverse_cons, List.reverse_nil, List.nil_append, List.cons_append,
        BigEndian.value, List.length_cons, List.length_nil, Nat.reduceAdd, Nat.reducePow, Nat.mul_one,
        Nat.add_zero]
      have hdiv : (b₀.toNat * 16777216 + (b₁.toNat * 65536 + (b₂.toNat * 256 + b₃.toNat))) / 16777216 =
          b₀.toNat := by
        omega
      rw [hdiv]
      omega

/-- The header of a message that was put in, and what is behind it. -/
theorem take_drop_rawMessage (m rest : List UInt8) :
    (rawMessage m ++ rest).take 4 = BigEndian.bytes 4 (m.length + 2 ^ 31) ∧
      (rawMessage m ++ rest).drop 4 = m ++ rest := by
  unfold rawMessage
  rw [List.append_assoc]
  exact ⟨List.take_left' (BigEndian.length_bytes _ _), List.drop_left' (BigEndian.length_bytes _ _)⟩

theorem value_header {m : List UInt8} (h : m.length < 2 ^ 31) :
    BigEndian.value (BigEndian.bytes 4 (m.length + 2 ^ 31)) = m.length + 2 ^ 31 :=
  BigEndian.value_bytes_of_lt (by omega)

/-- What the test on the unswapped length looks at. -/
theorem value_reverse_header {m : List UInt8} (h : m.length < 2 ^ 31) :
    BigEndian.value (BigEndian.bytes 4 (m.length + 2 ^ 31)).reverse % 4 = m.length / 2 ^ 24 % 4 := by
  rw [value_reverse_mod (BigEndian.length_bytes _ _), value_header h]
  omega

theorem stream_of_readMessage {fails : Bool} {stream m rest : List UInt8}
    (h : readMessage fails stream = .ok (m, rest)) :
    stream = rawMessage m ++ rest ∧ m.length < 2 ^ 31 ∧ m.length / 2 ^ 24 % 4 = 0 := by
  unfold readMessage at h
  dsimp only at h
  split_ifs at h with hshort hmod hfragment hend
  obtain ⟨rfl, rfl⟩ := Prod.mk.inj (Except.ok.inj h)
  have hlen : (stream.take 4).length = 4 := by
    have := List.length_take_le 4 stream
    omega
  have hlt := BigEndian.value_lt (stream.take 4)
  rw [hlen] at hlt
  have hbody : ((stream.drop 4).take (BigEndian.value (stream.take 4) % 2 ^ 31)).length =
      BigEndian.value (stream.take 4) % 2 ^ 31 := by
    have := List.length_take_le (BigEndian.value (stream.take 4) % 2 ^ 31) (stream.drop 4)
    omega
  rw [value_reverse_mod hlen] at hmod
  refine ⟨?_, ?_, ?_⟩
  · unfold rawMessage
    rw [hbody, show BigEndian.value (stream.take 4) % 2 ^ 31 + 2 ^ 31 =
      BigEndian.value (stream.take 4) by omega, BigEndian.bytes_value hlen, List.append_assoc,
      List.take_append_drop, List.take_append_drop]
  · omega
  · omega

theorem readMessage_rawMessage (fails : Bool) {m : List UInt8} (hlt : m.length < 2 ^ 31)
    (hclear : m.length / 2 ^ 24 % 4 = 0) (rest : List UInt8) :
    readMessage fails (rawMessage m ++ rest) = .ok (m, rest) := by
  obtain ⟨htake, hdrop⟩ := take_drop_rawMessage m rest
  unfold readMessage
  dsimp only
  rw [htake, hdrop, if_neg (by rw [BigEndian.length_bytes]; omega), value_reverse_header hlt,
    if_neg (by omega), value_header hlt, if_neg (by omega), Nat.add_mod_right, Nat.mod_eq_of_lt hlt,
    List.take_left, List.drop_left, if_neg (Nat.lt_irrefl _)]

/-- **What the blocking reader accepts.** A stream is read as a message exactly if it begins with the
message behind its length, and bits 24 and 25 of that length are not set. If one is, the message is refused
with a text on its length modulo four, whatever that is. -/
theorem read_message_iff (fails : Bool) (m : List UInt8) :
    (∀ stream rest, readMessage fails stream = .ok (m, rest) ↔
      stream = rawMessage m ++ rest ∧ m.length < 2 ^ 31 ∧ m.length / 2 ^ 24 % 4 = 0) ∧
    ∀ rest, m.length < 2 ^ 31 → m.length / 2 ^ 24 % 4 ≠ 0 →
      readMessage fails (rawMessage m ++ rest) =
        .error (.badMessageSize "read_message: received size not multiple of 4") := by
  refine ⟨fun stream rest => ⟨stream_of_readMessage, ?_⟩, fun rest hlt hset => ?_⟩
  · rintro ⟨rfl, hlt, hclear⟩
    exact readMessage_rawMessage fails hlt hclear rest
  · obtain ⟨htake, -⟩ := take_drop_rawMessage m rest
    unfold readMessage
    dsimp only
    rw [htake, if_neg (by rw [BigEndian.length_bytes]; omega), value_reverse_header hlt, if_pos hset]

end Fred.Xdrpp
