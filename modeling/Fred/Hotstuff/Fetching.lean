/-
# Fred.Hotstuff.Fetching -- who is after a missing block

An outstanding request needs somebody who asks for the block. The fetch manager forgets a hash when
the block is delivered, a worker when its call returns, whatever the answer holds; a call that fails
puts its hashes back. So the requests stay covered as long as no answer leaves out a block that nobody
else is after (`Complete`), and one empty answer strands a request.
-/
import Fred.Hotstuff.Placement

namespace Fred.Hotstuff

open Fred.Transition

variable {V : Type} {E : Setup V}

/-! ## Covered requests -/

/-- An answer of `sender` has a block of the hash, and the block is valid. -/
def Brought (E : Setup V) (sender : ReplicaID) (responses : List HotstuffBlockWire) (h : Hash) :
    Prop :=
  ∃ wire ∈ responses, E.crypto.hashHeader wire.header = h ∧
    (HotstuffBlock.receiveBlock E.crypto wire sender).validateHotstuff E.crypto E.config = .ok true

/-- The worker of `rid` has the hash in its pending set, waits for an answer about it, or still has
the block to pass on. -/
inductive Covers (E : Setup V) (rid : ReplicaID) (w : BlockFetchWorker) (h : Hash) : Prop
  | pending (hmem : h ∈ w.reqs)
  | waiting {req : List Hash} (hround : w.round = .waiting req) (hmem : h ∈ req)
  | replied {req : List Hash} {responses : List HotstuffBlockWire}
      (hround : w.round = .replied req responses) (hmem : h ∈ req)
      (hbrought : Brought E rid responses h)

theorem Covers.wants {rid : ReplicaID} {w : BlockFetchWorker} {h : Hash} (hc : Covers E rid w h) :
    w.Wants h := by
  cases hc with
  | pending hmem => exact Or.inl hmem
  | waiting hround hmem =>
      right
      rw [hround]
      exact hmem
  | replied hround hmem _ =>
      right
      rw [hround]
      exact hmem

/-- Some worker is after the block. -/
def Covered (E : Setup V) (m : BlockFetchManager) (h : Hash) : Prop :=
  ∃ rid, Covers E rid (m.workers rid) h

/-- `requested_from` has no bit set. -/
def Unmarked (m : BlockFetchManager) : Prop :=
  ∀ h ctx, m.outstandingReqs.lookup h = some ctx → ctx.requestedFrom = 0#32

theorem wasRequestedFrom_zero {ctx : RequestContext} (h : ctx.requestedFrom = 0#32)
    (rid : ReplicaID) : ctx.wasRequestedFrom rid = false := by
  unfold RequestContext.wasRequestedFrom
  rw [h]
  simp

section AddFetchRequest

variable {m : BlockFetchManager} {h x : Hash} {target rid : ReplicaID} {es : List Copy}

theorem Unmarked.context (hm : Unmarked m) (h : Hash) :
    ((m.outstandingReqs.lookup h).getD .init).requestedFrom = 0#32 := by
  rcases hl : m.outstandingReqs.lookup h with _ | ctx
  · rfl
  · exact hm h ctx hl

/-- A request goes to the worker of its target. -/
theorem workers_addFetchRequest_of_valid (hm : Unmarked m)
    (hvalid : E.config.isValidReplica target = true) :
    (m.addFetchRequest E.config h target es).workers =
      Function.update m.workers target ((m.workers target).addRequest h) := by
  unfold BlockFetchManager.addFetchRequest
  simp only [hvalid, Bool.not_true, Bool.false_eq_true, if_false,
    wasRequestedFrom_zero (hm.context h), Bool.not_false, if_true]
  rfl

theorem Unmarked.addFetchRequest (hm : Unmarked m)
    (hvalid : E.config.isValidReplica target = true) :
    Unmarked (m.addFetchRequest E.config h target es) := by
  intro x ctx hx
  rw [BlockFetchManager.lookup_addFetchRequest hvalid] at hx
  split at hx
  · rw [← Option.some.inj hx]
    exact hm.context h
  · exact hm x ctx hx

theorem Unmarked.deliverBlock (hm : Unmarked m) (h : Hash) : Unmarked (m.deliverBlock h).2 := by
  intro x ctx hx
  rw [BlockFetchManager.lookup_deliverBlock] at hx
  split at hx
  · cases hx
  · exact hm x ctx hx

theorem Covers.addRequest {w : BlockFetchWorker} (hc : Covers E rid w x) :
    Covers E rid (w.addRequest h) x := by
  cases hc with
  | pending hmem => exact .pending (List.mem_insert_of_mem hmem)
  | waiting hround hmem => exact .waiting hround hmem
  | replied hround hmem hbrought => exact .replied hround hmem hbrought

/-- The hash that is asked for is covered, and so is what was. -/
theorem covered_addFetchRequest (hm : Unmarked m) (hvalid : E.config.isValidReplica target = true)
    (hx : x = h ∨ Covered E m x) : Covered E (m.addFetchRequest E.config h target es) x := by
  unfold Covered
  rw [workers_addFetchRequest_of_valid hm hvalid]
  rcases hx with rfl | ⟨rid, hc⟩
  · refine ⟨target, ?_⟩
    rw [Function.update_self]
    exact .pending List.mem_insert_self
  · refine ⟨rid, ?_⟩
    by_cases hrid : rid = target
    · subst hrid
      rw [Function.update_self]
      exact hc.addRequest
    · rw [Function.update_of_ne hrid]
      exact hc

theorem covered_deliverBlock : Covered E (m.deliverBlock h).2 x ↔ Covered E m x := by
  unfold Covered
  rw [BlockFetchManager.workers_deliverBlock]

end AddFetchRequest

namespace Node

variable {s s' : Node V} {c : Copy}

/-- A block of the hash is in the network queue. -/
def InQueue (s : Node V) (h : Hash) : Prop :=
  ∃ c ∈ s.queued, ∃ p source, c.event.Brings p source ∧ s.replica.heap.hash p = h

/-- There is a request for the block. -/
def Outstanding (s : Node V) (h : Hash) : Prop :=
  ∃ ctx, s.fetcher.outstandingReqs.lookup h = some ctx

/-- Somebody is after the block, or it is on its way in the network queue. -/
def Pursued (s : Node V) (h : Hash) : Prop :=
  (∃ rid, (s.fetcher.workers rid).Wants h) ∨ s.InQueue h

/-- An answer brings every block it was asked for that is still missed, except blocks that are asked
for again or elsewhere, or are in the queue. -/
def Complete (E : Setup V) (s : Node V) (a : Action) : Prop :=
  ∀ rid responses req h, a = .fetchReply rid responses →
    (s.fetcher.workers rid).round = .waiting req → h ∈ req → s.Outstanding h →
    Brought E rid responses h ∨ h ∈ (s.fetcher.workers rid).reqs ∨ s.InQueue h ∨
      ∃ other, other ≠ rid ∧ Covers E other (s.fetcher.workers other) h

/-! ## The invariant -/

structure Fetched (E : Setup V) (s : Node V) : Prop where
  placed : Placed E s
  unmarked : Unmarked s.fetcher
  covered : ∀ h, s.Outstanding h → Covered E s.fetcher h ∨ s.InQueue h

namespace Fetched

theorem start (E : Setup V) : Fetched E (Node.start E) where
  placed := Placed.start E
  unmarked := fun _ _ h => by cases h
  covered := fun _ ⟨_, h⟩ => by cases h

/-- The object of a queued block event exists. -/
theorem lt_next (F : Fetched E s) (hc : c ∈ s.queued) {p : BlockPtr} {source : ReplicaID}
    (hb : c.event.Brings p source) : p < s.replica.heap.next := by
  have hmem : c ∈ s.copies := List.mem_append_left _ (List.mem_append_left _ hc)
  exact (hb.ok (F.placed.wellFormed.netEvents _ (F.placed.mem_netEvents hmem))).2

/-- A step of the replica keeps what is on its way. -/
theorem inQueue_withReplica (F : Fetched E s) {i : Input} {r : Replica V}
    (hstep : Hotstuff.step E i s.replica = .ok r) {h : Hash} (hq : s.InQueue h) :
    (s.withReplica r).InQueue h := by
  obtain ⟨c, hc, p, source, hb, hh⟩ := hq
  have hlabel := label_step F.placed.wellFormed hstep (F.lt_next hc hb)
  refine ⟨c, ?_, p, source, hb, (Heap.hash_of_label hlabel).trans hh⟩
  show c ∈ s.workList ++ (s.events ++ _)
  rw [← List.append_assoc]
  exact List.mem_append_left _ hc

end Fetched

/-! ## One event -/

theorem inQueue_mono (hqueue : ∀ c ∈ s.queued, c ∈ s'.queued)
    (hhash : ∀ p, s'.replica.heap.hash p = s.replica.heap.hash p) {h : Hash} (hq : s.InQueue h) :
    s'.InQueue h := by
  obtain ⟨c, hc, p, source, hb, hh⟩ := hq
  exact ⟨c, hqueue c hc, p, source, hb, (hhash p).trans hh⟩

/-- While the event `c` is run: every request is covered, or its block is in the rest of the queue or
is the one `c` brings. -/
def CoveredRunning (E : Setup V) (c : Copy) (s : Node V) : Prop :=
  ∀ x, s.Outstanding x → Covered E s.fetcher x ∨ s.InQueue x ∨
    ∃ p source, c.event.Brings p source ∧ s.replica.heap.hash p = x

/-- After the delivery of the block an event brings, what is still outstanding was not about it. -/
theorem CoveredRunning.deliverBlock (hcov : CoveredRunning E c s) {p : BlockPtr}
    {source : ReplicaID} (hb : c.event.Brings p source) {x : Hash}
    (hx : ∃ ctx, (s.fetcher.deliverBlock (s.replica.heap.hash p)).2.outstandingReqs.lookup x =
      some ctx) :
    Covered E (s.fetcher.deliverBlock (s.replica.heap.hash p)).2 x ∨ s.InQueue x := by
  obtain ⟨ctx, hx⟩ := hx
  rw [BlockFetchManager.lookup_deliverBlock] at hx
  split at hx
  · cases hx
  · rename_i hne
    rcases hcov x ⟨ctx, hx⟩ with h | h | ⟨p', source', hb', hh⟩
    · exact Or.inl (covered_deliverBlock.mpr h)
    · exact Or.inr h
    · have hp := hb.inj hb'
      exact absurd (hp ▸ hh).symm hne

theorem covered_deliver (hm : Unmarked s.fetcher) (hcov : CoveredRunning E c s) {p q j : BlockPtr}
    {source : ReplicaID} (hb : c.event.Brings p source) :
    Unmarked (s.deliver p q j).fetcher ∧ ∀ x, (s.deliver p q j).Outstanding x →
      Covered E (s.deliver p q j).fetcher x ∨ (s.deliver p q j).InQueue x := by
  refine ⟨hm.deliverBlock _, fun x hx => ?_⟩
  rcases hcov.deliverBlock hb hx with h | h
  · exact Or.inl h
  · refine Or.inr (inQueue_mono ?_ (Heap.hash_link _ _ _ _) h)
    intro d hd
    show d ∈ s.workList ++ (s.events ++ _)
    rw [← List.append_assoc]
    exact List.mem_append_left _ hd

theorem covered_parkOn (hm : Unmarked s.fetcher) (hcov : CoveredRunning E c s) {p : BlockPtr}
    {source : ReplicaID} {wait : Hash} {also : Option Hash} (hb : c.event.Brings p source)
    (hvalid : E.config.isValidReplica source = true) :
    Unmarked (s.parkOn E c p source wait also).fetcher ∧
      ∀ x, (s.parkOn E c p source wait also).Outstanding x →
        Covered E (s.parkOn E c p source wait also).fetcher x ∨
          (s.parkOn E c p source wait also).InQueue x := by
  have hdel := fun {x} => hcov.deliverBlock hb (x := x)
  unfold parkOn Outstanding InQueue queued
  dsimp only
  have hm₁ := hm.deliverBlock (s.replica.heap.hash p)
  generalize s.fetcher.deliverBlock (s.replica.heap.hash p) = r at hdel hm₁ ⊢
  have hm₂ : Unmarked (r.2.addFetchRequest E.config wait source (r.1 ++ [c])) :=
    hm₁.addFetchRequest hvalid
  have hwait : ∀ x, (∃ ctx, (r.2.addFetchRequest E.config wait source
      (r.1 ++ [c])).outstandingReqs.lookup x = some ctx) →
      Covered E (r.2.addFetchRequest E.config wait source (r.1 ++ [c])) x ∨ s.InQueue x := by
    rintro x ⟨ctx, hx⟩
    rw [BlockFetchManager.lookup_addFetchRequest hvalid] at hx
    split at hx
    · rename_i hxw
      exact Or.inl (covered_addFetchRequest hm₁ hvalid (Or.inl hxw))
    · rcases hdel ⟨ctx, hx⟩ with h | h
      · exact Or.inl (covered_addFetchRequest hm₁ hvalid (Or.inr h))
      · exact Or.inr h
  cases also with
  | none => exact ⟨hm₂, hwait⟩
  | some y =>
      refine ⟨hm₂.addFetchRequest hvalid, ?_⟩
      rintro x ⟨ctx, hx⟩
      rw [BlockFetchManager.lookup_addFetchRequest hvalid] at hx
      split at hx
      · rename_i hxy
        exact Or.inl (covered_addFetchRequest hm₂ hvalid (Or.inl hxy))
      · rcases hwait x ⟨ctx, hx⟩ with h | h
        · exact Or.inl (covered_addFetchRequest hm₂ hvalid (Or.inr h))
        · exact Or.inr h

/-- **Running an event leaves every request covered.** -/
theorem OnEventOk.covered (hm : Unmarked s.fetcher)
    (hvalid : E.config.isValidReplica c.event.source = true) (hcov : CoveredRunning E c s)
    (h : OnEventOk E c s s') :
    Unmarked s'.fetcher ∧ ∀ x, s'.Outstanding x → Covered E s'.fetcher x ∨ s'.InQueue x := by
  have hvote : ∀ {cert voter}, c.event = .vote cert voter → ∀ x, s.Outstanding x →
      Covered E s.fetcher x ∨ s.InQueue x := by
    intro cert voter hc x hx
    rcases hcov x hx with h | h | ⟨p, source, hb, -⟩
    · exact Or.inl h
    · exact Or.inr h
    · rcases hb with hb | hb <;> rw [hc] at hb <;> cases hb
  cases h with
  | vote hc _ => exact ⟨hm, hvote hc⟩
  | @unknownVote cert voter hc _ =>
      have hvoter : E.config.isValidReplica voter = true := by
        rw [hc] at hvalid
        exact hvalid
      replace hvalid := hvoter
      refine ⟨hm.addFetchRequest hvalid, ?_⟩
      rintro x ⟨ctx, hx⟩
      have hx' : (s.fetcher.addFetchRequest E.config cert.hash voter [c]).outstandingReqs.lookup x =
        some ctx := hx
      rw [BlockFetchManager.lookup_addFetchRequest hvalid] at hx'
      split at hx'
      · rename_i hxh
        exact Or.inl (covered_addFetchRequest hm hvalid (Or.inl hxh))
      · rcases hvote hc x ⟨ctx, hx'⟩ with h | h
        · exact Or.inl (covered_addFetchRequest hm hvalid (Or.inr h))
        · exact Or.inr h
  | proposal hc _ => exact covered_deliver hm hcov (Or.inl hc)
  | receive hc _ => exact covered_deliver hm hcov (Or.inr hc)
  | parked hc _ _ _ =>
      rw [hc.source_eq] at hvalid
      exact covered_parkOn hm hcov hc hvalid

/-! ## A worker -/

/-- What a worker covers when it goes on in a way that drops nothing. -/
theorem covered_modifyWorker {rid : ReplicaID} {f : BlockFetchWorker → BlockFetchWorker} {h : Hash}
    (hf : Covers E rid (s.fetcher.workers rid) h → Covers E rid (f (s.fetcher.workers rid)) h)
    (hc : Covered E s.fetcher h) : Covered E (s.modifyWorker rid f).fetcher h := by
  obtain ⟨x, hx⟩ := hc
  refine ⟨x, ?_⟩
  show Covers E x (Function.update s.fetcher.workers rid (f (s.fetcher.workers rid)) x) h
  by_cases hxr : x = rid
  · subst hxr
    rw [Function.update_self]
    exact hf hx
  · rw [Function.update_of_ne hxr]
    exact hx

theorem covers_sendFetch {rid : ReplicaID} {w : BlockFetchWorker} {h : Hash}
    (hc : Covers E rid w h) : Covers E rid w.sendFetch h := by
  unfold BlockFetchWorker.sendFetch
  split
  · rename_i r rs hround hreqs
    cases hc with
    | pending hmem => exact .waiting rfl (hreqs ▸ hmem)
    | waiting hw _ =>
        rw [hround] at hw
        cases hw
    | replied hw _ _ =>
        rw [hround] at hw
        cases hw
  · exact hc

theorem covers_fetchFailed {rid : ReplicaID} {w : BlockFetchWorker} {h : Hash}
    (hc : Covers E rid w h) : Covers E rid w.fetchFailed h := by
  unfold BlockFetchWorker.fetchFailed
  split
  · rename_i req hround
    cases hc with
    | pending hmem => exact .pending (List.mem_union_left hmem _)
    | waiting hw hmem =>
        rw [hround] at hw
        cases hw
        exact .pending (List.mem_union_right _ hmem)
    | replied hw _ _ =>
        rw [hround] at hw
        cases hw
  · exact hc

/-- An answer that leaves a block out is covered by what else is under way. -/
theorem covered_fetchReply {rid : ReplicaID} {responses : List HotstuffBlockWire} {h : Hash}
    (ho : s.Outstanding h) (hcomplete : Complete E s (.fetchReply rid responses))
    (hc : Covered E s.fetcher h) :
    Covered E (s.modifyWorker rid fun w => w.fetchReply responses).fetcher h ∨ s.InQueue h := by
  obtain ⟨x, hx⟩ := hc
  have hother : ∀ {y}, y ≠ rid → Covers E y (s.fetcher.workers y) h →
      Covered E (s.modifyWorker rid fun w => w.fetchReply responses).fetcher h := by
    intro y hy hcy
    refine ⟨y, ?_⟩
    show Covers E y (Function.update s.fetcher.workers rid _ y) h
    rw [Function.update_of_ne hy]
    exact hcy
  by_cases hxr : x = rid
  · subst hxr
    have hself : ∀ {w'}, (s.fetcher.workers x).fetchReply responses = w' → Covers E x w' h →
        Covered E (s.modifyWorker x fun w => w.fetchReply responses).fetcher h := by
      rintro w' rfl hw
      refine ⟨x, ?_⟩
      show Covers E x (Function.update s.fetcher.workers x _ x) h
      rw [Function.update_self]
      exact hw
    unfold BlockFetchWorker.fetchReply at hself
    split at hself
    · rename_i req hround
      cases hx with
      | pending hmem => exact Or.inl (hself rfl (.pending hmem))
      | waiting hw hmem =>
          rcases hcomplete x responses _ h rfl hw hmem ho with hb | hp | hq | ⟨y, hy, hcy⟩
          · rw [hround] at hw
            cases hw
            exact Or.inl (hself rfl (.replied rfl hmem hb))
          · exact Or.inl (hself rfl (.pending hp))
          · exact Or.inr hq
          · exact Or.inl (hother hy hcy)
      | replied hw _ _ =>
          rw [hround] at hw
          cases hw
    · exact Or.inl (hself rfl hx)
  · exact Or.inl (hother hxr hx)

/-- A block of the answer is passed on, and if it is valid it is in the queue then. -/
theorem covered_takeReply {rid : ReplicaID} {req : List Hash} {wire : HotstuffBlockWire}
    {responses : List HotstuffBlockWire} {r : Replica V} {h : Hash}
    (hround : (s.fetcher.workers rid).round = .replied req (wire :: responses))
    (hr : Hotstuff.step E (.fetchResponse wire rid) s.replica = .ok r)
    (hc : Covered E s.fetcher h) :
    Covered E (s.modifyWorker rid fun w => { w with round := .replied req responses }).fetcher h ∨
      ((s.modifyWorker rid fun w => { w with round := .replied req responses }).withReplica
        r).InQueue h := by
  obtain ⟨x, hx⟩ := hc
  have hset : ∀ {w'}, ({ s.fetcher.workers rid with round := .replied req responses } :
      BlockFetchWorker) = w' → Covers E rid w' h →
      Covered E (s.modifyWorker rid fun w => { w with round := .replied req responses }).fetcher
        h := by
    rintro w' rfl hw
    refine ⟨rid, ?_⟩
    show Covers E rid (Function.update s.fetcher.workers rid _ rid) h
    rw [Function.update_self]
    exact hw
  by_cases hxr : x = rid
  · subst hxr
    cases hx with
    | pending hmem => exact Or.inl (hset rfl (.pending hmem))
    | waiting hw _ =>
        rw [hround] at hw
        cases hw
    | replied hw hmem hbrought =>
        rw [hround] at hw
        cases hw
        obtain ⟨wire', hwire, hhash, hvalid⟩ := hbrought
        rcases List.mem_cons.mp hwire with rfl | hrest
        · right
          have hacc : r = s.replica.accepted E wire' x (.blockReceive · x) := by
            have hstep : Hotstuff.step E (.fetchResponse wire' x) s.replica =
                .ok (s.replica.accepted E wire' x (.blockReceive · x)) := by
              unfold Hotstuff.step Replica.receiveFetched Replica.acceptBlock
              simp only [hvalid]
              rfl
            exact Except.ok.inj (hr.symm.trans hstep)
          have hnew : copiesFrom s.replica.netEvents.length r.netEvents =
              [⟨s.replica.netEvents.length, .blockReceive s.replica.heap.next x⟩] := by
            rw [hacc]
            unfold copiesFrom Replica.accepted
            dsimp only
            rw [List.zipIdx_append, List.drop_left' (by simp)]
            simp
          refine ⟨⟨s.replica.netEvents.length, .blockReceive s.replica.heap.next x⟩, ?_, _, _,
            Or.inr rfl, ?_⟩
          · show _ ∈ s.workList ++ (s.events ++ copiesFrom s.replica.netEvents.length r.netEvents)
            rw [hnew]
            simp
          · show r.heap.hash s.replica.heap.next = h
            rw [hacc, ← hhash]
            show ((s.replica.heap.alloc _).get s.replica.heap.next).getHash = _
            rw [Heap.get_alloc_next]
            rfl
        · exact Or.inl (hset rfl (.replied rfl hmem ⟨wire', hrest, hhash, hvalid⟩))
  · refine Or.inl ⟨x, ?_⟩
    show Covers E x (Function.update s.fetcher.workers rid _ x) h
    rw [Function.update_of_ne hxr]
    exact hx

/-! ## A step -/

namespace Fetched

theorem step (F : Fetched E s) {a : Action} (hcomplete : Complete E s a)
    (h : s.step E a = .ok s') : Fetched E s' := by
  have P' := F.placed.step h
  have hwork : ∀ c ∈ s.workList, c.event ∈ s.replica.netEvents := fun c hc =>
    F.placed.mem_netEvents (by simp [copies, queued, hc])
  cases node_form F.placed.wellFormed hwork h with
  | idle => exact F
  | replica _ hr =>
      refine ⟨P', F.unmarked, fun x hx => ?_⟩
      rcases F.covered x hx with h | h
      · exact Or.inl h
      · exact Or.inr (F.inQueue_withReplica hr h)
  | takeEvents hnil =>
      refine ⟨P', F.unmarked, fun x hx => ?_⟩
      rcases F.covered x hx with h | ⟨c, hc, p, source, hb, hh⟩
      · exact Or.inl h
      · exact Or.inr ⟨c, by simpa [queued, hnil] using hc, p, source, hb, hh⟩
  | @runEvent c rest _ hcons hform =>
      have hc : c.event ∈ s.replica.netEvents := hwork c (hcons ▸ List.mem_cons_self)
      have hrun : CoveredRunning E c { s with workList := rest } := by
        intro x hx
        rcases F.covered x hx with h | ⟨d, hd, p, source, hb, hh⟩
        · exact Or.inl h
        · right
          unfold queued at hd
          rw [hcons] at hd
          rcases List.mem_cons.mp hd with rfl | hd
          · exact Or.inr ⟨p, source, hb, hh⟩
          · exact Or.inl ⟨d, hd, p, source, hb, hh⟩
      obtain ⟨hm, hcov⟩ := OnEventOk.covered (s := { s with workList := rest }) F.unmarked
        (F.placed.sources _ hc) hrun hform
      exact ⟨P', hm, hcov⟩
  | @worker a rid f ha =>
      refine ⟨P', F.unmarked, fun x hx => ?_⟩
      rcases F.covered x hx with hc | hq
      · rcases ha with ⟨-, rfl⟩ | ⟨-, rfl⟩ | ⟨responses, rfl, rfl⟩
        · exact Or.inl (covered_modifyWorker covers_sendFetch hc)
        · exact Or.inl (covered_modifyWorker covers_fetchFailed hc)
        · exact covered_fetchReply hx hcomplete hc
      · exact Or.inr hq
  | @takeReply rid req wire responses r hround hr =>
      refine ⟨P', F.unmarked, fun x hx => ?_⟩
      rcases F.covered x hx with hc | hq
      · exact covered_takeReply hround hr hc
      · exact Or.inr (F.inQueue_withReplica hr hq)
  | @replyDone rid req hround =>
      refine ⟨P', F.unmarked, fun x hx => ?_⟩
      rcases F.covered x hx with hc | hq
      · refine Or.inl (covered_modifyWorker (fun hcov => ?_) hc)
        cases hcov with
        | pending hmem => exact .pending hmem
        | waiting hw _ =>
            rw [hround] at hw
            cases hw
        | replied hw _ hbrought =>
            -- nothing is left of the answer
            rw [hround] at hw
            cases hw
            obtain ⟨_, hmem, -⟩ := hbrought
            cases hmem
      · exact Or.inr hq

theorem of_reach (h : Reach (Node.step E) (Complete E) (Node.start E) s) : Fetched E s :=
  h.invariant (Fetched.start E) fun _ _ _ F hc hstep => F.step hc hstep

end Fetched

/-- **Where no answer leaves a block out that nobody else is after, no request is stranded**: in every
such run somebody is after each block there is a request for, or the block is in the network queue. -/
theorem pursued_of_complete (h : Reach (Node.step E) (Complete E) (Node.start E) s) :
    ∀ x, s.Outstanding x → s.Pursued x := by
  intro x hx
  rcases (Fetched.of_reach h).covered x hx with ⟨rid, hc⟩ | hq
  · exact Or.inl ⟨rid, hc.wants⟩
  · exact Or.inr hq

end Node

/-! ### Answers to one request -/

namespace Instance

/-- A block arrives before its parent, and the parent is asked for. -/
def parentAsked : List Node.Action :=
  [.replica (.proposeMessage (blockOn 1#256 (certificate [] 0#256) []) 1)] ++ runNext ++
  [.sendFetch 1]

/-- Every block that is asked for is in the answer, and valid. -/
def completeCheck (E : Setup V) (s : Node V) : Node.Action → Bool
  | .fetchReply rid responses =>
    match (s.fetcher.workers rid).round with
    | .waiting req => req.all fun h => responses.any fun wire =>
        E.crypto.hashHeader wire.header == h &&
          match (HotstuffBlock.receiveBlock E.crypto wire rid).validateHotstuff E.crypto E.config with
          | .ok true => true
          | _ => false
    | _ => true
  | _ => true

theorem complete_of_check {s : Node V} {a : Node.Action} (h : completeCheck E s a = true) :
    Node.Complete E s a := by
  rintro rid responses req x rfl hround hx -
  unfold completeCheck at h
  simp only [hround, List.all_eq_true, List.any_eq_true, Bool.and_eq_true, beq_iff_eq] at h
  obtain ⟨wire, hwire, hhash, hvalid⟩ := h x hx
  refine Or.inl ⟨wire, hwire, hhash, ?_⟩
  split at hvalid
  · assumption
  · cases hvalid

theorem lt_of_isValidReplica {rid : ReplicaID} (h : (config 4).isValidReplica rid = true) :
    rid < 4 := by
  have hall : ∀ x ∈ (config 4).ids, x < 4 := by decide +kernel
  exact hall rid (ReplicaConfig.isValidReplica_iff.mp h)

end Instance

/-- The answer has the parent, which is on its way. -/
theorem Node.pursued_of_complete_four : ∃ s : Node Unit, s.Outstanding 1#256 ∧
    ∀ x, s.Outstanding x → s.Pursued x := by
  have hrun : ((runListIf (Node.step (Instance.setup 4 0))
      (Instance.completeCheck (Instance.setup 4 0))
      (Instance.parentAsked ++ [.fetchReply 1
        [Instance.blockOn 0#256 (Instance.certificate [] 0#256) []], .takeReply 1])
      (Node.start (Instance.setup 4 0))).map fun s =>
        (s.fetcher.outstandingReqs.lookup 1#256).isSome) = some true := by decide +kernel
  obtain ⟨s, hs, hout⟩ := Option.map_eq_some_iff.mp hrun
  exact ⟨s, Option.isSome_iff_exists.mp hout,
    Node.pursued_of_complete
      (Reach.of_runListIf (fun _ _ => Instance.complete_of_check) hs)⟩

/-- The answer is empty: the event stays parked and nobody asks again. -/
theorem Node.stranded_fetch : ¬ ∀ s : Node Unit,
    Reach (Node.step (Instance.setup 4 0)) anyInput (Node.start (Instance.setup 4 0)) s →
    ∀ x ctx, s.fetcher.outstandingReqs.lookup x = some ctx → ctx.dependentNetworkEvents ≠ [] →
      s.Pursued x := by
  intro hall
  obtain ⟨s, hreach, hs⟩ := Instance.exists_of_observeNode (Instance.setup 4 0)
    (Instance.parentAsked ++ [.fetchReply 1 [], .takeReply 1])
    (fun s => ((s.fetcher.outstandingReqs.lookup 1#256).map RequestContext.dependentNetworkEvents,
      s.queued, (List.range 4).map s.fetcher.workers))
    (some [⟨0, .proposal 1 1⟩], [], List.replicate 4 .init) (by decide +kernel)
  simp only [Prod.mk.injEq, Option.map_eq_some_iff] at hs
  obtain ⟨⟨ctx, hctx, hevents⟩, hqueue, hworkers⟩ := hs
  rcases hall s hreach 1#256 ctx hctx (by simp [hevents]) with ⟨rid, hw⟩ | ⟨c, hc, -⟩
  · have hinit : s.fetcher.workers rid = .init := by
      rcases hv : (Instance.setup 4 0).config.isValidReplica rid with _ | _
      · exact (Node.Placed.of_reach hreach).workers rid hv
      · have hlt := Instance.lt_of_isValidReplica hv
        have hmem : s.fetcher.workers rid ∈ (List.range 4).map s.fetcher.workers :=
          List.mem_map.mpr ⟨rid, List.mem_range.mpr hlt, rfl⟩
        rw [hworkers] at hmem
        exact List.eq_of_mem_replicate hmem
    rw [hinit] at hw
    rcases hw with hw | hw <;> cases hw
  · rw [hqueue] at hc
    cases hc

end Fred.Hotstuff
