/-
# Fred.Hotstuff.NetworkForms -- the state of a node after a step

The counterpart of `Fred.Hotstuff.Forms` for the network thread. `OnEventOk` lists what running one
event can do: hand it to the core, park it, or take a block in and release what waits for it.
`NodeForm` lists what a step of a node can do. A node's replica takes a step of its own or stays as
it is (`step_replica`).
-/
import Fred.Hotstuff.NetworkQueue
import Fred.Hotstuff.Forms

namespace Fred.Hotstuff

open Fred.Transition

variable {V : Type} {E : Setup V}

/-- The event brings the block object `p` from `source`. -/
def NetEvent.Brings (e : NetEvent) (p : BlockPtr) (source : ReplicaID) : Prop :=
  e = .proposal p source ∨ e = .blockReceive p source

theorem NetEvent.Brings.source_eq {e : NetEvent} {p : BlockPtr} {source : ReplicaID}
    (h : e.Brings p source) : e.source = source := by
  rcases h with rfl | rfl <;> rfl

theorem NetEvent.Brings.inj {e : NetEvent} {p p' : BlockPtr} {source source' : ReplicaID}
    (h : e.Brings p source) (h' : e.Brings p' source') : p' = p := by
  rcases h with rfl | rfl <;> rcases h' with h' | h' <;> cases h' <;> rfl

theorem NetEvent.Brings.ok {e : NetEvent} {p : BlockPtr} {source : ReplicaID} {h : Heap}
    (hb : e.Brings p source) (hok : e.Ok h) : p ≠ genesisPtr ∧ p < h.next := by
  rcases hb with rfl | rfl <;> exact hok

/-- A proposal of a block at height 0 is dropped, anything else is queued. -/
theorem queue_validateAndAddEvent {s s' : Replica V} {e : Event} (h : s.validateAndAddEvent e = .ok s') :
    s'.eventQueue = s.eventQueue ∨ s'.eventQueue = s.eventQueue ++ [e] := by
  cases e with
  | vote cert block rid =>
      by_cases hhash : s.heap.hash block = cert.hash
      · simp only [Replica.validateAndAddEvent, hhash, ne_eq, not_true_eq_false, if_false] at h
        exact Or.inr (Except.ok.inj h ▸ rfl)
      · simp only [Replica.validateAndAddEvent, ne_eq, hhash, not_false_eq_true, if_true] at h
        cases h
  | proposal block rid =>
      by_cases hzero : s.heap.height block = 0
      · simp only [Replica.validateAndAddEvent, hzero, if_true] at h
        exact Or.inl (Except.ok.inj h ▸ rfl)
      · simp only [Replica.validateAndAddEvent, hzero, if_false] at h
        exact Or.inr (Except.ok.inj h ▸ rfl)

namespace Node

variable {s s' : Node V} {c : Copy}

/-! ## Running an event -/

theorem handToCore_ok {e : Event} (h : s.handToCore c e = .ok s') :
    (s'.replica.eventQueue = s.replica.eventQueue ++ [e] ∧ s'.handed = s.handed ++ [c]) ∨
      (s'.replica.eventQueue = s.replica.eventQueue ∧ s'.handed = s.handed) := by
  unfold handToCore at h
  cases hadd : s.replica.validateAndAddEvent e with
  | error x =>
      rw [hadd] at h
      cases h
  | ok r =>
      rw [hadd] at h
      obtain rfl := Except.ok.inj h
      rcases queue_validateAndAddEvent hadd with hsame | hgrown
      · exact Or.inr ⟨hsame, if_pos hsame⟩
      · refine Or.inl ⟨hgrown, if_neg ?_⟩
        rw [hgrown]
        simp

/-- **`handed` is what the core has taken**: it grows exactly when the core's event queue does. -/
theorem handed_eq_iff {e : Event} (h : s.handToCore c e = .ok s') :
    s'.handed = s.handed ↔ s'.replica.eventQueue = s.replica.eventQueue := by
  rcases handToCore_ok h with ⟨hqueue, hhanded⟩ | ⟨hqueue, hhanded⟩
  · rw [hqueue, hhanded]
    simp
  · exact iff_of_true hhanded hqueue

/-- The core takes the event `e` that was made from the copy. -/
def handOver (c : Copy) (e : Event) (s : Node V) : Node V :=
  { s with replica := s.replica.enqueue e, handed := s.handed ++ [c] }

/-- A block that is complete is linked, and what waits for it is queued again. -/
def deliver (p q j : BlockPtr) (s : Node V) : Node V :=
  let r := s.fetcher.deliverBlock (s.replica.heap.hash p)
  { s with replica := s.replica.linked p q j, fetcher := r.2, events := s.events ++ r.1 }

/-- A block that is incomplete waits for `wait`, with what waited for it; `also` is asked for too. -/
def parkOn (E : Setup V) (c : Copy) (p : BlockPtr) (source : ReplicaID) (wait : Hash)
    (also : Option Hash) (s : Node V) : Node V :=
  let r := s.fetcher.deliverBlock (s.replica.heap.hash p)
  let m := r.2.addFetchRequest E.config wait source (r.1 ++ [c])
  { s with fetcher :=
      match also with
      | none => m
      | some x => m.addFetchRequest E.config x source [] }

/-- A hash the header of `p` names and the store does not have. -/
def Lacks (s : Node V) (p : BlockPtr) (x : Hash) : Prop :=
  s.replica.blockStore.blockCache x = none ∧
    (x = (s.replica.heap.header p).parentHash ∨ x = (s.replica.heap.header p).qc.justify)

/-- **What running an event can do.** -/
inductive OnEventOk (E : Setup V) (c : Copy) (s : Node V) : Node V → Prop
  | vote {cert : PartialCertificateWire} {voter : ReplicaID} {b : BlockPtr}
      (hc : c.event = .vote cert voter) (hb : s.replica.blockStore.blockCache cert.hash = some b) :
      OnEventOk E c s (s.handOver c (.vote cert b voter))
  | unknownVote {cert : PartialCertificateWire} {voter : ReplicaID}
      (hc : c.event = .vote cert voter) (hb : s.replica.blockStore.blockCache cert.hash = none) :
      OnEventOk E c s (s.addFetchRequest E cert.hash voter [c])
  | proposal {p q j : BlockPtr} {proposer : ReplicaID} (hc : c.event = .proposal p proposer)
      (hlinks : s.replica.Links p q j) :
      OnEventOk E c s ((s.deliver p q j).handOver c (.proposal p proposer))
  | receive {p q j : BlockPtr} {sender : ReplicaID} (hc : c.event = .blockReceive p sender)
      (hlinks : s.replica.Links p q j) : OnEventOk E c s (s.deliver p q j)
  | parked {p : BlockPtr} {source : ReplicaID} {wait : Hash} {also : Option Hash}
      (hc : c.event.Brings p source) (hwait : s.Lacks p wait) (halso : ∀ x ∈ also, s.Lacks p x)
      (hall : ∀ x, s.Lacks p x → x = wait ∨ x ∈ also) :
      OnEventOk E c s (s.parkOn E c p source wait also)

/-- `insert_block` for a block event of the queue. -/
theorem insertBlock_forms (W : WellFormed E s.replica) {p : BlockPtr} (hp : p ≠ genesisPtr)
    (hlt : p < s.replica.heap.next) (source : ReplicaID) :
    (∃ q j, s.replica.Links p q j ∧
      s.insertAndDeliver E c p source = (true, s.deliver p q j)) ∨
    ∃ wait also, s.Lacks p wait ∧ (∀ x ∈ also, s.Lacks p x) ∧
      (∀ x, s.Lacks p x → x = wait ∨ x ∈ also) ∧
      s.insertAndDeliver E c p source = (false, s.parkOn E c p source wait also) := by
  have hjus := getJustifyHash_eq W.shape hp hlt
  have hpar : (s.replica.heap.get p).getParentHash = (s.replica.heap.header p).parentHash := rfl
  rcases hq : s.replica.blockStore.blockCache (s.replica.heap.header p).parentHash with _ | q <;>
    rcases hj : s.replica.blockStore.blockCache (s.replica.heap.header p).qc.justify with _ | j
  · refine Or.inr ⟨_, some (s.replica.heap.header p).qc.justify, ⟨hq, Or.inl rfl⟩, ?_, ?_, ?_⟩
    · intro x hx
      obtain rfl := Option.mem_some_iff.mp hx
      exact ⟨hj, Or.inr rfl⟩
    · rintro x ⟨-, rfl | rfl⟩
      · exact Or.inl rfl
      · exact Or.inr rfl
    · unfold insertAndDeliver BlockStore.insertBlock
      rw [hpar, hjus]
      simp only [hq, hj]
      rfl
  · refine Or.inr ⟨_, none, ⟨hq, Or.inl rfl⟩, by simp, ?_, ?_⟩
    · rintro x ⟨hx, rfl | rfl⟩
      · exact Or.inl rfl
      · rw [hj] at hx
        cases hx
    · unfold insertAndDeliver BlockStore.insertBlock
      rw [hpar, hjus]
      simp only [hq, hj]
      rfl
  · refine Or.inr ⟨_, none, ⟨hj, Or.inr rfl⟩, by simp, ?_, ?_⟩
    · rintro x ⟨hx, rfl | rfl⟩
      · rw [hq] at hx
        cases hx
      · exact Or.inl rfl
    · unfold insertAndDeliver BlockStore.insertBlock
      rw [hpar, hjus]
      simp only [hq, hj]
      rfl
  · refine Or.inl ⟨q, j, ⟨hq, hj⟩, ?_⟩
    have hhash : s.fetcher.deliverBlock ((s.replica.heap.link p q j).hash p) =
        s.fetcher.deliverBlock (s.replica.heap.hash p) := by rw [Heap.hash_link]
    unfold insertAndDeliver
    rw [insertBlock_of_cached W.shape hp hlt hq hj]
    unfold deliver
    rw [← hhash]
    rfl

/-- **Running an event does one of these things, and cannot throw.** -/
theorem onEvent_form (W : WellFormed E s.replica) (hc : c.event ∈ s.replica.netEvents) :
    ∃ s', onEvent E c s = .ok s' ∧ OnEventOk E c s s' := by
  have hok := W.netEvents c.event hc
  rcases hev : c.event with ⟨cert, voter⟩ | ⟨p, proposer⟩ | ⟨p, sender⟩
  · rcases hb : s.replica.blockStore.blockCache cert.hash with _ | b
    · refine ⟨_, ?_, .unknownVote hev hb⟩
      unfold onEvent
      rw [hev]
      simp only [BlockStore.getBlock, hb]
    · refine ⟨_, ?_, .vote hev hb⟩
      have hhash : s.replica.heap.hash b = cert.hash := (W.shape.cached hb).1
      unfold onEvent
      rw [hev]
      simp [BlockStore.getBlock, hb, handToCore, Replica.validateAndAddEvent, hhash, handOver,
        Replica.enqueue]
  · rw [hev] at hok
    rcases insertBlock_forms W hok.1 hok.2 proposer (c := c) with ⟨q, j, hlinks, hins⟩ |
      ⟨wait, also, hwait, halso, hall, hins⟩
    · refine ⟨_, ?_, .proposal hev hlinks⟩
      have hpos : (s.deliver p q j).replica.heap.height p ≠ 0 := by
        show (s.replica.linked p q j).heap.height p ≠ 0
        simp [Replica.height_linked]
      unfold onEvent
      rw [hev]
      simp [hins, handToCore, Replica.validateAndAddEvent, hpos, handOver, Replica.enqueue]
    · refine ⟨_, ?_, .parked (Or.inl hev) hwait halso hall⟩
      unfold onEvent
      rw [hev]
      simp only [hins]
  · rw [hev] at hok
    rcases insertBlock_forms W hok.1 hok.2 sender (c := c) with ⟨q, j, hlinks, hins⟩ |
      ⟨wait, also, hwait, halso, hall, hins⟩
    · refine ⟨_, ?_, .receive hev hlinks⟩
      unfold onEvent
      rw [hev]
      simp only [hins]
    · refine ⟨_, ?_, .parked (Or.inr hev) hwait halso hall⟩
      unfold onEvent
      rw [hev]
      simp only [hins]

/-- The replica of a node handles the event as `step` has it. -/
theorem OnEventOk.replica_step (W : WellFormed E s.replica) (hc : c.event ∈ s.replica.netEvents)
    (h : OnEventOk E c s s') :
    Hotstuff.step E (.netEvent c.event) s.replica = .ok s'.replica := by
  have hok := W.netEvents c.event hc
  show (if c.event ∈ s.replica.netEvents then _ else _) = _
  rw [if_pos hc]
  cases h with
  | @vote cert voter b hev hb =>
      have hhash : s.replica.heap.hash b = cert.hash := (W.shape.cached hb).1
      rw [hev]
      simp [Replica.onNetEvent, BlockStore.getBlock, hb, Replica.validateAndAddEvent, hhash, handOver,
        Replica.enqueue]
  | unknownVote hev hb =>
      rw [hev]
      simp only [Replica.onNetEvent, BlockStore.getBlock, hb]
      rfl
  | @proposal p q j proposer hev hlinks =>
      rw [hev] at hok ⊢
      have hpos : (s.replica.linked p q j).heap.height p ≠ 0 := by simp [Replica.height_linked]
      have hins : Replica.insertBlock p s.replica = (true, s.replica.linked p q j) := by
        unfold Replica.insertBlock
        rw [insertBlock_of_cached W.shape hok.1 hok.2 hlinks.parent hlinks.justify]
        rfl
      simp only [Replica.onNetEvent, hins, Replica.validateAndAddEvent, hpos, if_false]
      rfl
  | @receive p q j sender hev hlinks =>
      rw [hev] at hok ⊢
      have hins : Replica.insertBlock p s.replica = (true, s.replica.linked p q j) := by
        unfold Replica.insertBlock
        rw [insertBlock_of_cached W.shape hok.1 hok.2 hlinks.parent hlinks.justify]
        rfl
      simp only [Replica.onNetEvent, hins]
      rfl
  | @parked p source wait also hev hwait _ _ =>
      have hp := hev.ok hok
      -- with something missing the insertion leaves the replica alone
      have hins : Replica.insertBlock p s.replica = (false, s.replica) := by
        rcases hflag : (Replica.insertBlock p s.replica).1 with _ | _
        · exact Prod.ext hflag (Replica.insertBlock_failed W hp.1 hp.2 hflag)
        · obtain ⟨q, j, hlinks, -⟩ := Replica.linked_eq W hp.1 hp.2 hflag
          obtain ⟨hnone, hx | hx⟩ := hwait
          · rw [hx, hlinks.parent] at hnone
            cases hnone
          · rw [hx, hlinks.justify] at hnone
            cases hnone
      rcases hev with hev | hev <;> rw [hev] <;> simp only [Replica.onNetEvent, hins] <;> rfl

/-! ## A step of a node -/

/-- **The state a step of a node returns in.** -/
inductive NodeForm (E : Setup V) (s : Node V) : Action → Node V → Prop
  | idle (a : Action) : NodeForm E s a s
  | replica {i : Input} {r : Replica V} (hown : ownInput i = true)
      (h : Hotstuff.step E i s.replica = .ok r) : NodeForm E s (.replica i) (s.withReplica r)
  | takeEvents (hwork : s.workList = []) :
      NodeForm E s .takeEvents { s with workList := s.events, events := [] }
  | runEvent {c : Copy} {rest : List Copy} {s' : Node V} (hwork : s.workList = c :: rest)
      (h : OnEventOk E c { s with workList := rest } s') : NodeForm E s .runEvent s'
  | worker {a : Action} {rid : ReplicaID} {f : BlockFetchWorker → BlockFetchWorker}
      (ha : a = .sendFetch rid ∧ f = BlockFetchWorker.sendFetch ∨
        a = .fetchFailed rid ∧ f = BlockFetchWorker.fetchFailed ∨
        ∃ responses, a = .fetchReply rid responses ∧ f = fun w => w.fetchReply responses) :
      NodeForm E s a (s.modifyWorker rid f)
  | takeReply {rid : ReplicaID} {req : List Hash} {wire : HotstuffBlockWire}
      {responses : List HotstuffBlockWire} {r : Replica V}
      (hround : (s.fetcher.workers rid).round = .replied req (wire :: responses))
      (h : Hotstuff.step E (.fetchResponse wire rid) s.replica = .ok r) :
      NodeForm E s (.takeReply rid)
        ((s.modifyWorker rid fun w => { w with round := .replied req responses }).withReplica r)
  | replyDone {rid : ReplicaID} {req : List Hash}
      (hround : (s.fetcher.workers rid).round = .replied req []) :
      NodeForm E s (.takeReply rid) (s.modifyWorker rid fun w => { w with round := .idle })

theorem node_form {a : Action} (W : WellFormed E s.replica)
    (hwork : ∀ c ∈ s.workList, c.event ∈ s.replica.netEvents) (h : s.step E a = .ok s') :
    NodeForm E s a s' := by
  unfold step at h
  split at h
  · split at h
    · rename_i i hown
      unfold liftStep at h
      split at h
      · cases h
      · rename_i r hr
        obtain rfl := Except.ok.inj h
        exact .replica hown hr
    · obtain rfl := Except.ok.inj h
      exact .idle _
  · split at h
    · rename_i hnil
      obtain rfl := Except.ok.inj h
      exact .takeEvents hnil
    · obtain rfl := Except.ok.inj h
      exact .idle _
  · split at h
    · obtain rfl := Except.ok.inj h
      exact .idle _
    · rename_i c rest hcons
      have hc : c.event ∈ s.replica.netEvents := hwork c (hcons ▸ List.mem_cons_self)
      obtain ⟨t, ht, hform⟩ := onEvent_form (s := { s with workList := rest }) (c := c) W hc
      obtain rfl := Except.ok.inj (ht.symm.trans h)
      exact .runEvent hcons hform
  · obtain rfl := Except.ok.inj h
    exact .worker (Or.inl ⟨rfl, rfl⟩)
  · obtain rfl := Except.ok.inj h
    exact .worker (Or.inr (Or.inl ⟨rfl, rfl⟩))
  · obtain rfl := Except.ok.inj h
    exact .worker (Or.inr (Or.inr ⟨_, rfl, rfl⟩))
  · rename_i rid
    unfold takeReply at h
    split at h
    · rename_i req wire responses hround
      unfold liftStep at h
      split at h
      · cases h
      · rename_i r hr
        obtain rfl := Except.ok.inj h
        exact .takeReply hround hr
    · rename_i req hround
      obtain rfl := Except.ok.inj h
      exact .replyDone hround
    · obtain rfl := Except.ok.inj h
      exact .idle _

/-- **Every step of a node is a step of its replica, or leaves it alone.** -/
theorem step_replica {a : Action} (W : WellFormed E s.replica)
    (hwork : ∀ c ∈ s.workList, c.event ∈ s.replica.netEvents) (h : s.step E a = .ok s') :
    (∃ i, Hotstuff.step E i s.replica = .ok s'.replica) ∨ s'.replica = s.replica := by
  cases node_form W hwork h with
  | idle => exact Or.inr rfl
  | replica _ hr => exact Or.inl ⟨_, hr⟩
  | takeEvents => exact Or.inr rfl
  | @runEvent c rest _ hcons hform =>
      have hc : c.event ∈ s.replica.netEvents := hwork c (hcons ▸ List.mem_cons_self)
      exact Or.inl ⟨_, hform.replica_step (s := { s with workList := rest }) W hc⟩
  | worker => exact Or.inr rfl
  | takeReply _ hr => exact Or.inl ⟨_, hr⟩
  | replyDone => exact Or.inr rfl

end Node

end Fred.Hotstuff
