/-
# Fred.Xdrpp.WriteQueue -- messages written to a stream socket

`msg_sock::putmsg`, `output` and `pop_wbytes` of `xdrpp/msgsock.cc`. A message is queued and, if the queue
was empty, written at once; what the kernel does not take is written when the poll set finds the socket
writable. Whatever part of the queue each `writev` takes, the bytes sent are the queued messages in order,
`wsize_` is what is left of them, and no assertion fails (`writes_in_order`).

`output` sets the callback for writing only after a `writev` that took something. If the first `writev` for
a queue is told to come back later (`EAGAIN`), the callback is not set, no later message makes another
attempt, and nothing is sent any more (`write_callback`).
-/
import Fred.Xdrpp.MsgSock

namespace Fred.Xdrpp

open Fred.Transition

/-! ## The queue -/

/-- What one `writev` does: the kernel takes at most `limit` bytes, or says `EAGAIN`, or fails. -/
inductive Writev where
  | takes (limit : ℕ)
  | again
  | failed
  deriving DecidableEq, Repr

/-- The writing part of a `msg_sock`. -/
structure WriteQueue where
  /-- The raw messages, each with its length in front. -/
  wqueue : List (List UInt8)
  wsize : ℕ
  wstart : ℕ
  wfail : Bool
  /-- A callback for writing is set in the poll set. -/
  registered : Bool
  /-- All bytes the kernel has taken. -/
  sent : List UInt8
  /-- The messages that were queued. -/
  accepted : List (List UInt8)
  deriving DecidableEq, Repr

/-- What must not happen in `pop_wbytes`. -/
inductive PopError where
  | assertion
  | emptyQueue
  deriving DecidableEq, Repr

namespace WriteQueue

def init : WriteQueue := ⟨[], 0, 0, false, false, [], []⟩

/-- `maxiov`. -/
def maxiov : ℕ := 8

/-- The loop of `pop_wbytes` that drops messages which were written to their end. -/
def popFronts : ℕ → List (List UInt8) → Except PopError (ℕ × List (List UInt8))
  | n, [] => if 0 < n then .error .emptyQueue else .ok (n, [])
  | n, m :: queue => if 0 < n ∧ m.length ≤ n then popFronts (n - m.length) queue else .ok (n, m :: queue)

def popWbytes (n : ℕ) (w : WriteQueue) : Except PopError WriteQueue :=
  if n = 0 then .ok w
  else if w.wsize < n then .error .assertion
  else
    match w.wqueue with
    | [] => .error .emptyQueue
    | front :: queue =>
      let frontbytes := front.length - w.wstart
      if n < frontbytes then .ok { w with wsize := w.wsize - n, wstart := w.wstart + n }
      else
        match popFronts (n - frontbytes) queue with
        | .error e => .error e
        | .ok (n', queue) => .ok { w with wsize := w.wsize - n, wqueue := queue, wstart := n' }

/-- The bytes that the `iovec`s of `output` cover. -/
def iov (w : WriteQueue) : List UInt8 := (w.wqueue.take maxiov).flatten.drop w.wstart

/-- `output`; `writev` returns 0 for no bytes. -/
def output (cbset : Bool) (r : Writev) (w : WriteQueue) : Except PopError WriteQueue :=
  let failed := { w with wfail := true, wsize := 0, wstart := 0, wqueue := [] }
  match r with
  | .again => .ok w
  | .failed => .ok failed
  | .takes limit =>
    if w.iov = [] then .ok failed
    else
      let chunk := w.iov.take (max 1 limit)
      match popWbytes chunk.length { w with sent := w.sent ++ chunk } with
      | .error e => .error e
      | .ok w =>
        if w.wsize ≠ 0 ∧ cbset = false then .ok { w with registered := true }
        else if w.wsize = 0 ∧ cbset = true then .ok { w with registered := false }
        else .ok w

def putmsg (data : List UInt8) (r : Writev) (w : WriteQueue) : Except PopError WriteQueue :=
  if w.wfail then .ok w
  else
    let wasEmpty := w.wsize = 0
    let w := { w with
      wsize := w.wsize + (rawMessage data).length
      wqueue := w.wqueue ++ [rawMessage data]
      accepted := w.accepted ++ [data] }
    if wasEmpty then w.output false r else .ok w

end WriteQueue

/-- A message is sent, or the poll set finds the socket writable. -/
inductive WriteEvent where
  | putmsg (data : List UInt8) (r : Writev)
  | writable (r : Writev)

def WriteQueue.step (e : WriteEvent) (w : WriteQueue) : Except PopError WriteQueue :=
  match e with
  | .putmsg data r => w.putmsg data r
  | .writable r => if w.registered then w.output true r else .ok w

/-! ## What is sent -/

variable {w : WriteQueue}

/-- The queued bytes that were not sent. -/
def WriteQueue.unsent (w : WriteQueue) : List UInt8 := w.wqueue.flatten.drop w.wstart

/-- The accounts of the queue. -/
structure Accounts (w : WriteQueue) : Prop where
  wsize_eq : w.wsize = w.unsent.length
  /-- The front message is not written to its end, and no message is empty. -/
  wstart_lt : ∀ front queue, w.wqueue = front :: queue → w.wstart < front.length
  wstart_eq : w.wqueue = [] → w.wstart = 0
  nonempty : ∀ m ∈ w.wqueue, 0 < m.length

theorem length_rawMessage (data : List UInt8) : (rawMessage data).length = data.length + 4 := by
  unfold rawMessage
  rw [List.length_append, BigEndian.length_bytes]
  omega

/-- The loop drops what was written; it ends inside a message, or with nothing left. -/
theorem popFronts_spec : ∀ {n : ℕ} {queue : List (List UInt8)}, n ≤ queue.flatten.length →
    ∃ n' queue', WriteQueue.popFronts n queue = .ok (n', queue') ∧
      queue'.flatten.drop n' = queue.flatten.drop n ∧ (∀ m ∈ queue', m ∈ queue) ∧
      (∀ front rest, queue' = front :: rest → 0 < front.length → n' < front.length) ∧
      (queue' = [] → n' = 0) := by
  intro n queue
  induction queue generalizing n with
  | nil =>
      intro hle
      obtain rfl : n = 0 := Nat.le_zero.mp hle
      exact ⟨0, [], rfl, rfl, fun _ h => h, fun _ _ h => (by cases h), fun _ => rfl⟩
  | cons m queue ih =>
      intro hle
      rw [List.flatten_cons, List.length_append] at hle
      unfold WriteQueue.popFronts
      split_ifs with hpop
      · obtain ⟨n', queue', hrun, hdrop, hmem, hlt, hnil⟩ := ih (n := n - m.length) (by omega)
        refine ⟨n', queue', hrun, ?_, fun x hx => List.mem_cons_of_mem m (hmem x hx), hlt, hnil⟩
        rw [hdrop, List.flatten_cons, List.drop_append, List.drop_eq_nil_of_le hpop.2,
          List.nil_append]
      · refine ⟨n, m :: queue, rfl, rfl, fun _ h => h, fun front rest h hpos => ?_,
          fun h => by cases h⟩
        obtain ⟨rfl, rfl⟩ := List.cons.inj h
        omega

/-- **`pop_wbytes` keeps the accounts**: no assertion fails, and exactly `n` bytes are dropped. -/
theorem Accounts.popWbytes (A : Accounts w) {n : ℕ} (hn : n ≤ w.unsent.length) :
    ∃ w', w.popWbytes n = .ok w' ∧ Accounts w' ∧ w'.unsent = w.unsent.drop n ∧ w'.sent = w.sent ∧
      w'.accepted = w.accepted ∧ w'.wfail = w.wfail ∧ w'.registered = w.registered := by
  unfold WriteQueue.popWbytes
  by_cases hzero : n = 0
  · rw [if_pos hzero, hzero]
    exact ⟨w, rfl, A, rfl, rfl, rfl, rfl, rfl⟩
  rw [if_neg hzero, if_neg (by rw [A.wsize_eq]; omega)]
  have hunsent : w.unsent = w.wqueue.flatten.drop w.wstart := rfl
  rcases hqueue : w.wqueue with _ | ⟨front, queue⟩
  · rw [hunsent, hqueue] at hn
    simp at hn
    omega
  have hstart := A.wstart_lt front queue hqueue
  have hsplit : w.unsent = front.drop w.wstart ++ queue.flatten := by
    rw [hunsent, hqueue, List.flatten_cons, List.drop_append, Nat.sub_eq_zero_of_le hstart.le,
      List.drop_zero]
  have hlen : w.unsent.length = (front.length - w.wstart) + queue.flatten.length := by
    rw [hsplit, List.length_append, List.length_drop]
  -- where the queue now starts, and what is left of it
  have haccounts : ∀ (start : ℕ) (rest : List (List UInt8)),
      rest.flatten.drop start = w.unsent.drop n →
      (∀ m queue, rest = m :: queue → start < m.length) → (rest = [] → start = 0) →
      (∀ m ∈ rest, m ∈ w.wqueue) →
      Accounts { w with wsize := w.wsize - n, wqueue := rest, wstart := start } := by
    intro start rest hdrop hlt hnil hmem
    refine ⟨?_, hlt, hnil, fun m hm => A.nonempty m (hmem m hm)⟩
    show w.wsize - n = (rest.flatten.drop start).length
    rw [hdrop, List.length_drop, A.wsize_eq]
  dsimp only
  by_cases hfront : n < front.length - w.wstart
  · rw [if_pos hfront]
    have hdrop : w.wqueue.flatten.drop (w.wstart + n) = w.unsent.drop n := by
      rw [hunsent, List.drop_drop]
    have A' := haccounts (w.wstart + n) w.wqueue hdrop (fun m rest h => by
      obtain ⟨rfl, rfl⟩ := List.cons.inj (hqueue.symm.trans h)
      omega) (fun h => by rw [hqueue] at h; cases h) fun _ hm => hm
    rw [← hqueue]
    exact ⟨_, rfl, A', hdrop, rfl, rfl, rfl, rfl⟩
  · rw [if_neg hfront]
    have hle : n - (front.length - w.wstart) ≤ queue.flatten.length := by omega
    obtain ⟨n', queue', hrun, hdrop, hmem, hlt, hnil⟩ := popFronts_spec hle
    have hsub : ∀ m ∈ queue', m ∈ w.wqueue := by
      intro m hm
      rw [hqueue]
      exact List.mem_cons_of_mem front (hmem m hm)
    have hdrop' : queue'.flatten.drop n' = w.unsent.drop n := by
      have hhead : (front.drop w.wstart).drop n = [] := by
        apply List.drop_eq_nil_of_le
        rw [List.length_drop]
        omega
      rw [hdrop, hsplit, List.drop_append, hhead, List.length_drop, List.nil_append]
    have A' := haccounts n' queue' hdrop' (fun m rest h => by
      refine hlt m rest h (A.nonempty m (hsub m ?_))
      rw [h]
      exact List.mem_cons_self) hnil hsub
    rw [hrun]
    exact ⟨_, rfl, A', hdrop', rfl, rfl, rfl, rfl⟩

/-- What `writev` covers is a beginning of what was not sent. -/
theorem Accounts.iov_prefix (A : Accounts w) : w.iov <+: w.unsent := by
  unfold WriteQueue.iov WriteQueue.unsent
  have hle : w.wstart ≤ (w.wqueue.take WriteQueue.maxiov).flatten.length := by
    rcases hqueue : w.wqueue with _ | ⟨front, queue⟩
    · rw [A.wstart_eq hqueue]
      exact Nat.zero_le _
    · have hlt := A.wstart_lt front queue hqueue
      unfold WriteQueue.maxiov
      rw [List.take_succ_cons, List.flatten_cons, List.length_append]
      omega
  rw [← List.take_append_drop WriteQueue.maxiov w.wqueue, List.flatten_append, List.drop_append,
    Nat.sub_eq_zero_of_le hle, List.drop_zero, List.take_append_drop]
  exact List.prefix_append _ _

/-- There is something to write as long as something was not sent. -/
theorem Accounts.iov_ne_nil (A : Accounts w) (hsize : w.wsize ≠ 0) : w.iov ≠ [] := by
  rcases hqueue : w.wqueue with _ | ⟨front, queue⟩
  · have hzero : w.unsent = [] := by
      unfold WriteQueue.unsent
      rw [hqueue]
      exact List.drop_nil
    rw [A.wsize_eq, hzero] at hsize
    exact absurd rfl hsize
  · have hlt := A.wstart_lt front queue hqueue
    have hlen : 0 < w.iov.length := by
      unfold WriteQueue.iov WriteQueue.maxiov
      rw [hqueue, List.take_succ_cons, List.flatten_cons, List.length_drop, List.length_append]
      omega
    exact List.length_pos_iff.mp hlen

/-! ## Runs -/

/-- What was sent is a beginning of the queued messages, and a socket that has not failed will send the
rest. -/
structure WriteInv (w : WriteQueue) : Prop where
  sent_prefix : w.sent <+: w.accepted.flatMap rawMessage
  accounts : w.wfail = false →
    Accounts w ∧ w.sent ++ w.unsent = w.accepted.flatMap rawMessage
  emptied : w.wfail = true → w.wqueue = []

/-- What a call of `output` has done: it was told to come back, or it failed, or it has written
something. -/
inductive Output (cbset : Bool) (w : WriteQueue) : Writev → WriteQueue → Prop
  | again : Output cbset w .again w
  | failed {r : Writev} {w' : WriteQueue} (hfail : w'.wfail = true) (inv : WriteInv w')
      (haccepted : w'.accepted = w.accepted) (hsent : w'.sent = w.sent)
      (hwhy : r = .failed ∨ w.iov = []) : Output cbset w r w'
  | wrote {limit : ℕ} {w' : WriteQueue} (inv : WriteInv w') (haccepted : w'.accepted = w.accepted)
      (hfail : w'.wfail = false) (hsent : w.sent <+: w'.sent)
      (hlonger : w.sent.length < w'.sent.length)
      (hregistered : w.registered = cbset → (w'.registered = true ↔ w'.wsize ≠ 0)) :
      Output cbset w (.takes limit) w'

theorem output_spec (I : WriteInv w) (cbset : Bool) (r : Writev) :
    ∃ w', w.output cbset r = .ok w' ∧ Output cbset w r w' := by
  have hfailed : WriteInv { w with wfail := true, wsize := 0, wstart := 0, wqueue := [] } :=
    ⟨I.sent_prefix, fun h => (by cases h), fun _ => rfl⟩
  unfold WriteQueue.output
  cases r with
  | again => exact ⟨w, rfl, .again⟩
  | failed => exact ⟨_, rfl, .failed rfl hfailed rfl rfl (Or.inl rfl)⟩
  | takes limit =>
      by_cases hiov : w.iov = []
      · simp only [if_pos hiov]
        exact ⟨_, rfl, .failed rfl hfailed rfl rfl (Or.inr hiov)⟩
      simp only [if_neg hiov]
      have hf : w.wfail = false := by
        rw [← Bool.not_eq_true]
        intro h
        apply hiov
        unfold WriteQueue.iov
        rw [I.emptied h]
        exact List.drop_nil
      obtain ⟨A, hstream⟩ := I.accounts hf
      have hpos : 0 < (w.iov.take (max 1 limit)).length := by
        have := List.length_pos_iff.mpr hiov
        rw [List.length_take]
        omega
      have hprefix : w.iov.take (max 1 limit) <+: w.unsent :=
        (List.take_prefix _ _).trans A.iov_prefix
      have A₁ : Accounts { w with sent := w.sent ++ w.iov.take (max 1 limit) } :=
        ⟨A.wsize_eq, A.wstart_lt, A.wstart_eq, A.nonempty⟩
      obtain ⟨w₁, hpop, A', hunsent, hsent, haccepted, hfail, hreg⟩ :=
        A₁.popWbytes (n := (w.iov.take (max 1 limit)).length) hprefix.length_le
      have hstream' : w₁.sent ++ w₁.unsent = w₁.accepted.flatMap rawMessage := by
        rw [hsent, hunsent, haccepted, ← hstream, List.append_assoc]
        congr 1
        exact List.prefix_iff_eq_append.mp hprefix
      have I' : WriteInv w₁ := by
        refine ⟨hstream' ▸ List.prefix_append _ _, fun _ => ⟨A', hstream'⟩, fun h => ?_⟩
        rw [hfail, hf] at h
        cases h
      have hlonger : w.sent.length < w₁.sent.length := by
        rw [hsent]
        show _ < (w.sent ++ _).length
        rw [List.length_append]
        omega
      have hset : ∀ b : Bool, (w.registered = cbset → (b = true ↔ w₁.wsize ≠ 0)) →
          Output cbset w (.takes limit) { w₁ with registered := b } := fun b hb =>
        .wrote ⟨I'.sent_prefix, fun hf' => ⟨⟨A'.wsize_eq, A'.wstart_lt, A'.wstart_eq, A'.nonempty⟩,
          (I'.accounts hf').2⟩, I'.emptied⟩ haccepted (hfail.trans hf)
          (hsent ▸ List.prefix_append _ _) hlonger hb
      rw [hpop]
      dsimp only
      split_ifs with hwait hdone
      · exact ⟨_, rfl, hset true fun _ => iff_of_true rfl hwait.1⟩
      · exact ⟨_, rfl, hset false fun _ => iff_of_false Bool.false_ne_true fun hne => hne hdone.1⟩
      · refine ⟨_, rfl, hset w₁.registered fun hcb => ?_⟩
        rw [hreg]
        show w.registered = true ↔ _
        rw [hcb]
        cases cbset <;> simp_all

/-- A message is queued; if nothing was waiting, an attempt is made. -/
theorem putmsg_spec (I : WriteInv w) (hf : w.wfail = false) (data : List UInt8) (r : Writev) :
    ∃ w₁, WriteInv w₁ ∧ w₁.wfail = false ∧ w₁.wsize ≠ 0 ∧ w₁.registered = w.registered ∧
      w₁.sent = w.sent ∧ w₁.accepted = w.accepted ++ [data] ∧
      w.putmsg data r = if w.wsize = 0 then w₁.output false r else .ok w₁ := by
  obtain ⟨A, hstream⟩ := I.accounts hf
  have hraw := length_rawMessage data
  have hflat : (w.wqueue ++ [rawMessage data]).flatten.drop w.wstart = w.unsent ++ rawMessage data := by
    have hle : w.wstart ≤ w.wqueue.flatten.length := by
      rcases hqueue : w.wqueue with _ | ⟨front, queue⟩
      · rw [A.wstart_eq hqueue]
        exact Nat.zero_le _
      · have := A.wstart_lt front queue hqueue
        rw [List.flatten_cons, List.length_append]
        omega
    rw [List.flatten_append, List.drop_append, Nat.sub_eq_zero_of_le hle, List.drop_zero]
    simp [WriteQueue.unsent]
  have hall : w.sent ++ (w.wqueue ++ [rawMessage data]).flatten.drop w.wstart =
      (w.accepted ++ [data]).flatMap rawMessage := by
    rw [hflat, ← List.append_assoc, hstream, List.flatMap_append]
    simp
  refine ⟨{ w with
      wsize := w.wsize + (rawMessage data).length
      wqueue := w.wqueue ++ [rawMessage data]
      accepted := w.accepted ++ [data] }, ⟨hall ▸ List.prefix_append _ _, fun _ => ⟨?_, hall⟩, ?_⟩,
    hf, ?_, rfl, rfl, rfl, ?_⟩
  · refine ⟨?_, fun front queue h => ?_, fun h => ?_, fun m hm => ?_⟩
    · show w.wsize + _ = ((w.wqueue ++ [rawMessage data]).flatten.drop w.wstart).length
      rw [hflat, List.length_append, A.wsize_eq]
    · rcases hqueue : w.wqueue with _ | ⟨x, xs⟩
      · rw [hqueue] at h
        obtain ⟨rfl, -⟩ := List.cons.inj h
        show w.wstart < _
        rw [A.wstart_eq hqueue]
        omega
      · rw [hqueue] at h
        obtain ⟨rfl, -⟩ := List.cons.inj h
        exact A.wstart_lt x xs hqueue
    · simp at h
    · rcases List.mem_append.mp hm with hm | hm
      · exact A.nonempty m hm
      · rw [List.mem_singleton.mp hm]
        omega
  · intro h
    rw [hf] at h
    cases h
  · show w.wsize + _ ≠ 0
    omega
  · unfold WriteQueue.putmsg
    rw [hf]
    rfl

/-- The poll set looks at the socket as long as something is to be written. -/
def Watched (w : WriteQueue) : Prop := w.wfail = false → (w.registered = true ↔ w.wsize ≠ 0)

/-- No message that finds an empty queue is told to come back. -/
def Patient (w : WriteQueue) (e : WriteEvent) : Prop :=
  ∀ data, e = .putmsg data .again → w.wfail = true ∨ w.wsize ≠ 0

theorem Output.inv {cbset : Bool} {r : Writev} {w' : WriteQueue} (I : WriteInv w)
    (h : Output cbset w r w') : WriteInv w' ∧ w.sent <+: w'.sent := by
  cases h with
  | again => exact ⟨I, List.prefix_rfl⟩
  | failed _ inv _ hsent _ => exact ⟨inv, hsent ▸ List.prefix_rfl⟩
  | wrote inv _ _ hsent _ _ => exact ⟨inv, hsent⟩

/-- **Step lemma.** -/
theorem WriteInv.step (I : WriteInv w) (e : WriteEvent) :
    ∃ w', w.step e = .ok w' ∧ WriteInv w' ∧ w.sent <+: w'.sent ∧
      (Patient w e → Watched w → Watched w') := by
  cases e with
  | putmsg data r =>
      show ∃ w', w.putmsg data r = .ok w' ∧ _
      rcases hf : w.wfail with _ | _
      · obtain ⟨w₁, I₁, hf₁, hne₁, hreg₁, hsent₁, -, hput⟩ := putmsg_spec I hf data r
        rw [hput]
        by_cases hsize : w.wsize = 0
        · rw [if_pos hsize]
          obtain ⟨w', hout, O⟩ := output_spec I₁ false r
          refine ⟨w', hout, (O.inv I₁).1, hsent₁ ▸ (O.inv I₁).2, fun hpatient hw hf' => ?_⟩
          cases O with
          | again =>
              rcases hpatient data rfl with hfail | hsize'
              · rw [hf] at hfail
                cases hfail
              · exact absurd hsize hsize'
          | failed hfail _ _ _ _ => rw [hfail] at hf'; cases hf'
          | wrote _ _ _ _ _ hregistered =>
              apply hregistered
              rw [hreg₁, ← Bool.not_eq_true, hw hf]
              exact fun hne => hne hsize
        · rw [if_neg hsize]
          refine ⟨w₁, rfl, I₁, hsent₁ ▸ List.prefix_rfl, fun _ hw _ => ?_⟩
          rw [hreg₁, hw hf]
          exact iff_of_true hsize hne₁
      · have hput : w.putmsg data r = .ok w := by
          unfold WriteQueue.putmsg
          rw [hf]
          rfl
        exact ⟨w, hput, I, List.prefix_rfl, fun _ hw => hw⟩
  | writable r =>
      unfold WriteQueue.step
      dsimp only
      split_ifs with hreg
      · obtain ⟨w', hout, O⟩ := output_spec I true r
        refine ⟨w', hout, (O.inv I).1, (O.inv I).2, fun _ hw hf' => ?_⟩
        cases O with
        | again => exact hw hf'
        | failed hfail _ _ _ _ => rw [hfail] at hf'; cases hf'
        | wrote _ _ _ _ _ hregistered => exact hregistered hreg
      · exact ⟨w, rfl, I, List.prefix_rfl, fun _ hw => hw⟩

/-- What an event adds to the queued messages. -/
def WriteQueue.queued (w : WriteQueue) : WriteEvent → List (List UInt8)
  | .putmsg data _ => if w.wfail then [] else [data]
  | .writable _ => []

/-- A message is queued unless the socket has failed, which it then has for good. -/
theorem WriteInv.step_accepted {e : WriteEvent} {w' : WriteQueue} (I : WriteInv w)
    (h : w.step e = .ok w') :
    w'.accepted = w.accepted ++ w.queued e ∧ (w.wfail = true → w'.wfail = true) := by
  have hkept : ∀ {cbset : Bool} {r : Writev} {w₁ w₂ : WriteQueue}, WriteInv w₁ →
      w₁.output cbset r = .ok w₂ → w₂.accepted = w₁.accepted ∧ (w₁.wfail = true → w₂.wfail = true) := by
    intro cbset r w₁ w₂ I₁ hout
    obtain ⟨w₃, hout', O⟩ := output_spec I₁ cbset r
    obtain rfl : w₃ = w₂ := Except.ok.inj (hout'.symm.trans hout)
    cases O with
    | again => exact ⟨rfl, id⟩
    | failed hfail _ haccepted _ _ => exact ⟨haccepted, fun _ => hfail⟩
    | @wrote limit _ _ haccepted _ _ hlonger _ =>
        refine ⟨haccepted, fun hf => ?_⟩
        -- the queue of a failed socket is empty, so nothing can have been written
        have hiov : w₁.iov = [] := by
          unfold WriteQueue.iov
          rw [I₁.emptied hf]
          exact List.drop_nil
        unfold WriteQueue.output at hout
        simp only [if_pos hiov] at hout
        exact Except.ok.inj hout ▸ rfl
  cases e with
  | putmsg data r =>
      change w.putmsg data r = .ok w' at h
      unfold WriteQueue.queued
      rcases hf : w.wfail with _ | _
      · obtain ⟨w₁, I₁, -, -, -, -, haccepted₁, hput⟩ := putmsg_spec I hf data r
        rw [hput] at h
        refine ⟨?_, fun h => by cases h⟩
        show w'.accepted = w.accepted ++ [data]
        rw [← haccepted₁]
        split_ifs at h
        · exact (hkept I₁ h).1
        · exact Except.ok.inj h ▸ rfl
      · unfold WriteQueue.putmsg at h
        rw [hf, if_pos rfl] at h
        obtain rfl := Except.ok.inj h
        exact ⟨by simp, fun _ => hf⟩
  | writable r =>
      unfold WriteQueue.step at h
      dsimp only at h
      unfold WriteQueue.queued
      rw [List.append_nil]
      split_ifs at h
      · exact hkept I h
      · exact Except.ok.inj h ▸ ⟨rfl, id⟩

theorem WriteInv.init : WriteInv .init :=
  ⟨List.prefix_rfl, fun _ => ⟨⟨rfl, fun _ _ h => (by cases h), fun _ => rfl,
    fun _ h => (by cases h)⟩, rfl⟩, fun _ => rfl⟩

theorem writeInv_of_reach {P : WriteQueue → WriteEvent → Prop}
    (h : Reach WriteQueue.step P .init w) : WriteInv w := by
  refine h.invariant WriteInv.init fun t u e I _ hs => ?_
  obtain ⟨w', hw', I', -⟩ := I.step e
  exact Except.ok.inj (hw'.symm.trans hs) ▸ I'

/-- **Messages are written in order.** In every run, whatever part of the queue each `writev` takes: every
call returns, so no assertion of `pop_wbytes` fails and no front of an empty queue is used; the bytes sent
are the first ones of the queued messages with their lengths; until a `writev` fails, `wsize_` says how many
are left; and while any are left, a socket that is watched and found writable sends more of them. -/
theorem writes_in_order (h : Reach WriteQueue.step anyInput .init w) :
    (∀ e, ∃ w', w.step e = .ok w') ∧
    w.sent <+: w.accepted.flatMap rawMessage ∧
    (w.wfail = false → w.sent.length + w.wsize = (w.accepted.flatMap rawMessage).length) ∧
    ∀ limit w', w.wfail = false → w.wsize ≠ 0 → w.registered = true →
      w.step (.writable (.takes limit)) = .ok w' → w.sent.length < w'.sent.length := by
  have I := writeInv_of_reach h
  refine ⟨fun e => ?_, I.sent_prefix, fun hf => ?_, fun limit w' hf hne hreg hs => ?_⟩
  · obtain ⟨w', hw', -⟩ := I.step e
    exact ⟨w', hw'⟩
  · obtain ⟨A, hstream⟩ := I.accounts hf
    rw [A.wsize_eq, ← hstream, List.length_append]
  · obtain ⟨w'', hout, O⟩ := output_spec I true (.takes limit)
    unfold WriteQueue.step at hs
    simp only [if_pos hreg] at hs
    obtain rfl : w'' = w' := Except.ok.inj (hout.symm.trans hs)
    cases O with
    | failed _ _ _ _ hwhy =>
        rcases hwhy with hwhy | hiov
        · cases hwhy
        · exact absurd hiov ((I.accounts hf).1.iov_ne_nil hne)
    | wrote _ _ _ _ hlonger _ => exact hlonger

/-- Something is to be written, and nothing will. -/
structure Stalled (w : WriteQueue) : Prop where
  wfail_eq : w.wfail = false
  wsize_ne : w.wsize ≠ 0
  registered_eq : w.registered = false

/-- **Step lemma**: a stalled socket sends nothing and stays stalled. -/
theorem Stalled.step {w' : WriteQueue} {e : WriteEvent} (S : Stalled w)
    (h : w.step e = .ok w') : Stalled w' ∧ w'.sent = w.sent := by
  cases e with
  | putmsg data r =>
      unfold WriteQueue.step WriteQueue.putmsg at h
      simp only [S.wfail_eq, S.wsize_ne, if_false, Bool.false_eq_true] at h
      obtain rfl := Except.ok.inj h
      refine ⟨⟨rfl, ?_, S.registered_eq⟩, rfl⟩
      show w.wsize + _ ≠ 0
      have := S.wsize_ne
      omega
  | writable r =>
      unfold WriteQueue.step at h
      simp only [S.registered_eq, Bool.false_eq_true, if_false] at h
      obtain rfl := Except.ok.inj h
      exact ⟨S, rfl⟩

/-- **When messages get stuck.** As long as no message that finds an empty queue is told to come back, a
socket that has not failed is watched if and only if it has something left to write. Once one is told so,
no byte is sent any more, whatever is done with the socket. -/
theorem write_callback :
    (∀ w, Reach WriteQueue.step Patient .init w → w.wfail = false →
      (w.registered = true ↔ w.wsize ≠ 0)) ∧
    ∀ w data w' w'', Reach WriteQueue.step Patient .init w → w.wfail = false → w.wsize = 0 →
      w.step (.putmsg data .again) = .ok w' → Reach WriteQueue.step anyInput w' w'' →
      Stalled w'' ∧ w''.sent = w.sent := by
  have hwatched : ∀ w, Reach WriteQueue.step Patient .init w → Watched w := by
    intro w h
    refine h.invariant_of_reach (I := Watched) (fun _ => ?_) ?_
    · simp [WriteQueue.init]
    · intro t u e ht hw hpatient hs
      obtain ⟨w', hw', -, -, hkeep⟩ := (writeInv_of_reach ht).step e
      exact Except.ok.inj (hw'.symm.trans hs) ▸ hkeep hpatient hw
  refine ⟨hwatched, fun w data w' w'' h hf hsize hs hrun => ?_⟩
  obtain ⟨w₁, -, hf₁, hne₁, hreg₁, hsent₁, -, hput⟩ :=
    putmsg_spec (writeInv_of_reach h) hf data .again
  have hw' : w' = w₁ := by
    have hagain : w.putmsg data .again = .ok w₁ := by
      rw [hput, if_pos hsize]
      rfl
    exact Except.ok.inj (hs.symm.trans hagain)
  have hstalled : Stalled w' := by
    refine hw' ▸ ⟨hf₁, hne₁, ?_⟩
    rw [hreg₁, ← Bool.not_eq_true, hwatched w h hf]
    exact fun hne => hne hsize
  have hinv : Stalled w'' ∧ w''.sent = w'.sent := by
    refine hrun.invariant (I := fun t => Stalled t ∧ t.sent = w'.sent) ⟨hstalled, rfl⟩ ?_
    intro t u e ht _ hstep
    obtain ⟨S, hsent⟩ := ht.1.step hstep
    exact ⟨S, hsent.trans ht.2⟩
  exact ⟨hinv.1, hinv.2.trans (hw' ▸ hsent₁)⟩

/-! ### Two messages -/

/-- Two messages, of which the first is written in two pieces. -/
def twoMessages : List WriteEvent :=
  [.putmsg [104, 105] (.takes 3), .putmsg [] .again, .writable (.takes 4)]

/-- Seven of the ten bytes are sent. -/
theorem writes_in_order_two : ∃ w, Reach WriteQueue.step anyInput .init w ∧
    w.sent <+: rawMessage [104, 105] ++ rawMessage [] ∧ w.sent.length + w.wsize = 10 ∧ w.wsize = 3 := by
  have hrun : (runListIf WriteQueue.step (fun _ _ => true) twoMessages .init).map
      (fun w => (w.accepted, w.wfail, w.wsize)) = some ([[104, 105], []], false, 3) := by
    decide +kernel
  obtain ⟨w, hw, heq⟩ := Option.map_eq_some_iff.mp hrun
  obtain ⟨haccepted, heq⟩ := Prod.mk.inj heq
  obtain ⟨hf, hsize⟩ := Prod.mk.inj heq
  have hreach : Reach WriteQueue.step anyInput .init w := Reach.of_runListIf (fun _ _ _ => trivial) hw
  obtain ⟨-, hsent, hcount, -⟩ := writes_in_order hreach
  rw [haccepted] at hsent hcount
  exact ⟨w, hreach, hsent, hcount hf, hsize⟩

/-- A first message that is told to come back is never sent. -/
theorem write_callback_lost : ∃ w', WriteQueue.step (.putmsg [104, 105] .again) .init = .ok w' ∧
    ∀ w'', Reach WriteQueue.step anyInput w' w'' → w''.sent = [] :=
  ⟨_, rfl, fun w'' h => (write_callback.2 .init [104, 105] _ w'' (Reach.refl _) rfl rfl rfl h).2⟩

end Fred.Xdrpp
