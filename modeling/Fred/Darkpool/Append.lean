/-
# Fred.Darkpool.Append -- what an `/append` request is told

The `/append` handler of the leader (main/test.cc) over a `NonspeculativeHotstuffApp`. A request puts its
body into the proposal buffer, proposes one block, waits for a certificate and answers whether that is on
the proposed block. The buffer hands out its oldest body, and to a leaf that supports a non-empty child
only, so the block proposed for a request need not carry the request's body: the blocks at heights 1 to
3 never do (`body_eq_nil_of_low`).

While every request that is told `true` had its own body proposed, every non-empty block is certified
while its request waits, and the leader stays on its branch, the ledger is the list of the orders that
were certified (`acknowledged_is_ordered`).
-/
import Fred.Darkpool.Ledger
import Fred.Hotstuff.Branch
import Fred.Vm.ProposalBytes

namespace Fred.Darkpool

open Fred.Decimal Fred.Forest Fred.Hotstuff Fred.Transition

variable {σ : Type} {E : Setup (NonspeculativeVMBridge σ)}

/-! ## The handler -/

/-- Where the handler of `/append` is with a request. -/
inductive Handling
  | idle
  /-- The body is in the proposal buffer. -/
  | added (body : Text)
  /-- A block is proposed, and the handler waits in `wait_for_qc`. `own` records whether the bridge had
  this request's body to hand out and was asked for it. -/
  | waiting (body : Text) (expected_hash : Hash) (own : Bool)
  deriving DecidableEq

/-- The process of the leader, with what has happened in it. -/
structure Leader (σ : Type) where
  replica : Replica (NonspeculativeVMBridge σ)
  handling : Handling
  confirmed_hashes : List Text
  /-- The hash and the body of each block proposed, newest first. -/
  broadcast : List (Hash × Text)
  /-- The hashes of the blocks `update_hqc` was shown a certificate on. -/
  certified : List Hash
  /-- The bodies of the requests answered `true`. -/
  acknowledged : List Text

/-- What the threads of the leader do. -/
inductive LeaderAct
  /-- The handler takes up a request: `add_proposal`. -/
  | post (body : Text)
  /-- The handler proposes: `do_propose` of the pace maker. -/
  | propose
  /-- The handler returns from `wait_for_qc` and answers. -/
  | answer
  /-- Anything else happens at the replica. -/
  | input (i : Input)

namespace Leader

/-- `init_clean`. -/
def start (E : Setup (NonspeculativeVMBridge σ)) : Leader σ :=
  ⟨Hotstuff.start E, .idle, [], [], [], []⟩

/-- The next non-empty block gets the body: it is the oldest in the buffer, and the leaf supports a
non-empty child. -/
def IsNext (E : Setup (NonspeculativeVMBridge σ)) (r : Replica (NonspeculativeVMBridge σ))
    (body : Text) : Prop :=
  r.heap.supportsNonemptyChildProposal E.selfId 3 r.bLeaf = true ∧
    r.vm.proposalBuffer.getLast? = some body

instance (r : Replica (NonspeculativeVMBridge σ)) (body : Text) : Decidable (IsNext E r body) :=
  inferInstanceAs (Decidable (_ ∧ _))

/-- `add_proposal` of a request's body. -/
def added (body : Text) (s : Leader σ) : Leader σ :=
  { s with
    replica := { s.replica with vm := s.replica.vm.addProposal body }
    handling := .added body }

/-- `do_propose` for the request with the given body has left the replica as `r`. -/
def proposed (E : Setup (NonspeculativeVMBridge σ)) (body : Text)
    (r : Replica (NonspeculativeVMBridge σ)) (s : Leader σ) : Leader σ :=
  { s with
    replica := r
    handling := .waiting body (r.heap.hash r.bLeaf) (IsNext E s.replica body)
    broadcast := (r.heap.hash r.bLeaf, (r.heap.get r.bLeaf).wireBlock.body) :: s.broadcast }

/-- `wait_for_new_qc` has returned `res`, and the request with the given body and order hash is
answered. -/
def answered (body hash : Text) (res : Bool) (s : Leader σ) : Leader σ :=
  { s with
    replica := { s.replica with latestNewQc := none }
    handling := .idle
    confirmed_hashes := push_back s.confirmed_hashes hash res
    acknowledged := push_back s.acknowledged body res }

/-- An input has left the replica as `r`. -/
def after (E : Setup (NonspeculativeVMBridge σ)) (i : Input)
    (r : Replica (NonspeculativeVMBridge σ)) (s : Leader σ) : Leader σ :=
  { s with
    replica := r
    certified := s.certified ++ ((certifiedBy E s.replica i).map s.replica.heap.hash).toList }

/-- Requests are handled one after another. An act that throws or cannot happen yet is an error: a body
that is too short throws before it is added, and the wait ends when a certificate is there. -/
def step (E : Setup (NonspeculativeVMBridge σ)) (a : LeaderAct) (s : Leader σ) :
    Except Unit (Leader σ) :=
  match a with
  | .post body =>
    if s.handling = .idle ∧ (hash_string_substr body).isSome then .ok (s.added body) else .error ()
  | .propose =>
    match s.handling with
    | .added body =>
      match Hotstuff.step E .doPropose s.replica with
      | .error _ => .error ()
      | .ok r => .ok (s.proposed E body r)
    | _ => .error ()
  | .answer =>
    match s.handling, s.replica.latestNewQc with
    | .waiting body expected_hash _, some latest_new_qc =>
      match hash_string_substr body with
      | none => .error ()
      | some hash => .ok (s.answered body hash (latest_new_qc = expected_hash))
    | _, _ => .error ()
  | .input i =>
    -- only the handler proposes
    if i = .doPropose ∨ i = .doEmptyPropose then .error ()
    else match Hotstuff.step E i s.replica with
      | .error _ => .error ()
      | .ok r => .ok (s.after E i r)

/-! ## What should be acknowledged -/

variable (s : Leader σ)

/-- The hashes of the leader's branch, newest first. -/
def branch : List Hash := s.replica.heap.path s.replica.bLeaf

/-- The body of a block the leader has proposed. -/
def bodyOf (h : Hash) : Text := (s.broadcast.lookup h).getD []

/-- A non-empty certified block. -/
def Ordered (h : Hash) : Prop := h ∈ s.certified ∧ s.bodyOf h ≠ []

instance (h : Hash) : Decidable (s.Ordered h) := inferInstanceAs (Decidable (_ ∧ _))

/-- The orders that the non-empty certified blocks among `l`, newest first, carry, oldest first. -/
def ordersOn (l : List Hash) : List (Option Text) :=
  (l.reverse.filter s.Ordered).map fun h => hash_string_substr (s.bodyOf h)

/-- The orders on the leader's branch. -/
def orders : List (Option Text) := s.ordersOn s.branch

/-- What is acknowledged is what was ordered. -/
structure Faithful : Prop where
  /-- A body is answered `true` only if a certified block carries it. -/
  certified : ∀ body ∈ s.acknowledged, ∃ h ∈ s.certified, (h, body) ∈ s.broadcast
  /-- An entry of the ledger is the order of the non-empty certified block at its position. -/
  ordered : ∀ (i : ℕ) (hash : Text), s.confirmed_hashes[i]? = some hash → s.orders[i]? = some (some hash)

/-- If the input shows a certificate, then the leader stays on its branch, and if this is the first one on
a non-empty block of the branch, the request the block was proposed for waits. -/
def InTime (E : Setup (NonspeculativeVMBridge σ)) (i : Input) : Prop :=
  ∀ b, Certifies E s.replica i b →
    (Raises E s.replica i b → s.replica.heap.hash b ∈ s.branch) ∧
      (s.replica.heap.hash b ∈ s.branch → s.bodyOf (s.replica.heap.hash b) ≠ [] →
        s.replica.heap.hash b ∈ s.certified ∨
          ∃ body own, s.handling = .waiting body (s.replica.heap.hash b) own)

/-- If the request is about to be told `true`, its body was the next when its block was proposed; if it
is about to be told `false`, that block is empty or not certified. -/
def AnswersOwn : Prop :=
  ∀ body expected_hash own, s.handling = .waiting body expected_hash own →
    if s.replica.latestNewQc = some expected_hash then own = true else ¬ s.Ordered expected_hash

variable {s} {t : Leader σ}

/-- The condition on an act. -/
def Meets (E : Setup (NonspeculativeVMBridge σ)) (s : Leader σ) : LeaderAct → Prop
  | .input i => s.InTime E i
  | .answer => s.AnswersOwn
  | _ => True

/-! ## The orders on a branch -/

theorem ordersOn_append (l l' : List Hash) : s.ordersOn (l ++ l') = s.ordersOn l' ++ s.ordersOn l := by
  simp [ordersOn]

theorem ordersOn_cons (x : Hash) (l : List Hash) :
    s.ordersOn (x :: l) = s.ordersOn l ++ s.ordersOn [x] := ordersOn_append [x] l

theorem ordersOn_eq_nil {l : List Hash} (h : ∀ x ∈ l, ¬ s.Ordered x) : s.ordersOn l = [] := by
  have hnone : l.reverse.filter s.Ordered = [] := by
    rw [List.filter_eq_nil_iff]
    simpa using h
  rw [ordersOn, hnone, List.map_nil]

/-- Blocks that are certified or not as before, and have their bodies, carry the same orders. -/
theorem ordersOn_congr {l : List Hash} (hordered : ∀ x ∈ l, t.Ordered x ↔ s.Ordered x)
    (hbody : ∀ x ∈ l, t.bodyOf x = s.bodyOf x) : t.ordersOn l = s.ordersOn l := by
  have hfilter : l.reverse.filter t.Ordered = l.reverse.filter s.Ordered := by
    apply List.filter_congr
    intro x hx
    exact decide_eq_decide.mpr (hordered x (List.mem_reverse.mp hx))
  unfold ordersOn
  rw [hfilter, List.map_inj_left]
  intro x hx
  rw [hbody x (List.mem_reverse.mp (List.mem_filter.mp hx).1)]

theorem bodyOf_cons_of_ne {h x : Hash} {body : Text} {r : List (Hash × Text)}
    (hr : t.broadcast = (h, body) :: r) (hne : x ≠ h) : t.bodyOf x = (r.lookup x).getD [] := by
  rw [bodyOf, hr, List.lookup_cons, beq_false_of_ne hne]

/-! ## The ledger is in order -/

/-- The order of the block the handler waits for, once it is certified and not answered yet. -/
def pending (s : Leader σ) : List (Option Text) :=
  match s.handling with
  | .waiting _ expected_hash _ =>
    if s.Ordered expected_hash then [hash_string_substr (s.bodyOf expected_hash)] else []
  | _ => []

/-- **The ledger is the orders of the branch**, but for the one that is about to be answered. -/
structure InOrder (s : Leader σ) : Prop where
  latest : ∀ h, s.replica.latestNewQc = some h → h ∈ s.certified
  /-- Certified blocks are not above the highest certified block. -/
  low : ∀ h ∈ s.certified, ∃ x, s.replica.heap.Settled x ∧ s.replica.heap.hash x = h ∧
    s.replica.heap.height x ≤ s.replica.heap.height s.replica.hqc.1
  hqc_le : s.replica.heap.height s.replica.hqc.1 ≤ s.replica.heap.height s.replica.bLeaf
  /-- The leaf is on the branch of the block that is waited for. -/
  top : ∀ body expected_hash own, s.handling = .waiting body expected_hash own →
    ∃ p q, s.replica.heap.parent p = some q ∧ s.replica.heap.hash p = expected_hash ∧
      s.branch <:+ s.replica.heap.path p
  own : ∀ body expected_hash, s.handling = .waiting body expected_hash true →
    s.bodyOf expected_hash = body ∧ (expected_hash, body) ∈ s.broadcast
  acknowledged : ∀ body ∈ s.acknowledged, ∃ h ∈ s.certified, (h, body) ∈ s.broadcast
  orders_eq : s.orders = s.confirmed_hashes.map some ++ s.pending

theorem InOrder.start (E : Setup (NonspeculativeVMBridge σ)) : InOrder (start E) where
  latest := fun _ h => by cases h
  low := fun _ h => absurd h List.not_mem_nil
  hqc_le := le_rfl
  top := fun _ _ _ h => by cases h
  own := fun _ _ h => by cases h
  acknowledged := fun _ h => absurd h List.not_mem_nil
  orders_eq := ordersOn_eq_nil fun _ _ h => absurd h.1 List.not_mem_nil

theorem InOrder.faithful (I : InOrder s) : s.Faithful where
  certified := I.acknowledged
  ordered := by
    intro i hash h
    obtain ⟨hlt, -⟩ := List.getElem?_eq_some_iff.mp h
    rw [I.orders_eq, List.getElem?_append_left (by simpa using hlt), List.getElem?_map, h]
    rfl

/-! ### The handler -/

theorem hash_string_substr_ne_nil {body : Text} (h : (hash_string_substr body).isSome) : body ≠ [] := by
  rintro rfl
  simp [hash_string_substr] at h

theorem InOrder.added (I : InOrder s) (hidle : s.handling = .idle) (body : Text) :
    InOrder (s.added body) where
  latest := I.latest
  low := I.low
  hqc_le := I.hqc_le
  top := fun _ _ _ h => by cases h
  own := fun _ _ h => by cases h
  acknowledged := I.acknowledged
  orders_eq := by
    have heq := I.orders_eq
    rw [pending, hidle] at heq
    exact heq

/-- **An answer adds the order of the block that was waited for, or nothing.** -/
theorem InOrder.answered (I : InOrder s) {body : Text} {expected_hash latest_new_qc : Hash} {own : Bool}
    {hash : Text} (hwait : s.handling = .waiting body expected_hash own)
    (hlatest : s.replica.latestNewQc = some latest_new_qc) (hhash : hash_string_substr body = some hash)
    (hown : s.AnswersOwn) :
    InOrder (s.answered body hash (latest_new_qc = expected_hash)) := by
  have hanswer := hown body expected_hash own hwait
  rw [hlatest] at hanswer
  have horders := I.orders_eq
  rw [pending, hwait] at horders
  dsimp only at horders
  by_cases heq : latest_new_qc = expected_hash
  · subst heq
    rw [if_pos rfl] at hanswer
    subst hanswer
    -- the block waited for is certified and carries the body: its order is the pending one
    obtain ⟨hbody, hmem⟩ := I.own body _ hwait
    have hcertified := I.latest _ hlatest
    have hne : body ≠ [] := hash_string_substr_ne_nil (by simp [hhash])
    have hordered : s.Ordered latest_new_qc := ⟨hcertified, by rwa [hbody]⟩
    rw [if_pos hordered, hbody, hhash] at horders
    refine ⟨?_, I.low, I.hqc_le, ?_, ?_, ?_, ?_⟩
    · intro _ h
      cases h
    · intro _ _ _ h
      cases h
    · intro _ _ h
      cases h
    · intro b hb
      simp only [Leader.answered, push_back, decide_true, if_true] at hb
      rcases List.mem_append.mp hb with hb | hb
      · exact I.acknowledged b hb
      · rw [List.mem_singleton.mp hb]
        exact ⟨_, hcertified, hmem⟩
    · refine horders.trans ?_
      simp [Leader.answered, push_back, pending]
  · -- another certificate: the condition says that no order is pending
    rw [if_neg fun h => heq (Option.some.inj h)] at hanswer
    rw [if_neg hanswer] at horders
    refine ⟨?_, I.low, I.hqc_le, ?_, ?_, ?_, ?_⟩
    · intro _ h
      cases h
    · intro _ _ _ h
      cases h
    · intro _ _ h
      cases h
    · intro b hb
      simp only [Leader.answered, push_back, heq, decide_false, Bool.false_eq_true, if_false] at hb
      exact I.acknowledged b hb
    · refine horders.trans ?_
      simp [Leader.answered, push_back, pending, heq]

/-- A block proposed for the next body in the buffer carries it. -/
theorem body_of_isNext {B I : Type} {M : VMType B I σ} {r r' : Replica (NonspeculativeVMBridge σ)}
    (hvm : E.vm = NonspeculativeVMBridge.vmBridge M) (W : WellFormed E r)
    (h : Hotstuff.step E .doPropose r = .ok r') {body : Text} (hnext : IsNext E r body) :
    (r'.heap.get r'.bLeaf).wireBlock.body = body := by
  obtain ⟨minted, vm, hget, hwire⟩ := minted_wireBlock W h
  rw [hvm, hnext.1] at hget
  have hminted := congrArg Prod.fst (Except.ok.inj hget)
  simp only [if_true, NonspeculativeVMBridge.getNextProposal, hnext.2] at hminted
  rw [hwire, ← hminted]

/-- The blocks at heights 1 to 3 are empty. -/
theorem body_eq_nil_of_low {B I : Type} {M : VMType B I σ} {r r' : Replica (NonspeculativeVMBridge σ)}
    (hvm : E.vm = NonspeculativeVMBridge.vmBridge M) (W : WellFormed E r)
    (h : Hotstuff.step E .doPropose r = .ok r') (hlow : r.heap.height r.bLeaf < 3) :
    (r'.heap.get r'.bLeaf).wireBlock.body = [] := by
  obtain ⟨minted, vm, hget, hwire⟩ := minted_wireBlock W h
  have hasks : r.heap.supportsNonemptyChildProposal E.selfId 3 r.bLeaf = false := by
    rw [Bool.eq_false_iff]
    intro hsupports
    have := three_le_of_supports W hsupports
    omega
  rw [hvm, hasks] at hget
  have hminted := congrArg Prod.fst (Except.ok.inj hget)
  simp only [Bool.false_eq_true, if_false] at hminted
  rw [hwire, ← hminted]
  rfl

theorem InOrder.proposed {B I : Type} {M : VMType B I σ} (O : InOrder s)
    (hvm : E.vm = NonspeculativeVMBridge.vmBridge M) (W : WellFormed E s.replica)
    {r : Replica (NonspeculativeVMBridge σ)} (hstep : Hotstuff.step E .doPropose s.replica = .ok r)
    (N : NoCollision r) {body : Text} (hadded : s.handling = .added body) :
    InOrder (s.proposed E body r) := by
  have W' := (step_cases W hstep).1
  have H := heap_step W hstep
  obtain ⟨hpath, hheight, hhqc, hlatest⟩ := path_mint W (N.of_step W hstep) (Or.inl rfl) hstep
  obtain ⟨q, hparent⟩ := W'.forest.exists_parent (a := r.bLeaf) (by omega)
  have hle : r.heap.height r.hqc.1 ≤ s.replica.heap.height s.replica.bLeaf := by
    rw [hhqc, H.height_eq W.hqc_settled]
    exact O.hqc_le
  have hlow : ∀ h ∈ s.certified, ∃ x, r.heap.Settled x ∧ r.heap.hash x = h ∧
      r.heap.height x ≤ r.heap.height r.hqc.1 := by
    intro h hh
    obtain ⟨x, hset, hhash, hx⟩ := O.low h hh
    refine ⟨x, H.settled hset, (H.hash_eq hset).trans hhash, ?_⟩
    rwa [hhqc, H.height_eq hset, H.height_eq W.hqc_settled]
  -- the new block is above every certified block
  have hnew : r.heap.hash r.bLeaf ∉ s.certified := by
    intro hh
    obtain ⟨x, hset, hhash, hx⟩ := hlow _ hh
    have := N.height_eq W' hset W'.leaf_settled hhash
    omega
  have hfresh : r.heap.hash r.bLeaf ∉ s.branch := by
    have hnodup := nodup_path N W' W'.leaf_settled
    rw [hpath] at hnodup
    exact (List.nodup_cons.mp hnodup).1
  have hqc_le : r.heap.height r.hqc.1 ≤ r.heap.height r.bLeaf := by omega
  refine ⟨fun h hh => O.latest h (hlatest ▸ hh), hlow, hqc_le, ?_, ?_, ?_, ?_⟩
  · intro b e own h
    obtain ⟨-, rfl, -⟩ := Handling.waiting.inj h
    exact ⟨r.bLeaf, q, hparent, rfl, List.suffix_refl _⟩
  · intro b e h
    obtain ⟨rfl, rfl, hown⟩ := Handling.waiting.inj h
    have hbody := body_of_isNext hvm W hstep (of_decide_eq_true hown)
    constructor
    · simp [bodyOf, Leader.proposed, hbody]
    · simp [Leader.proposed, hbody]
  · intro b hb
    obtain ⟨h, hh, hmem⟩ := O.acknowledged b hb
    exact ⟨h, hh, List.mem_cons_of_mem _ hmem⟩
  · have hbranch : (s.proposed E body r).branch = r.heap.hash r.bLeaf :: s.branch := hpath
    have hbody : ∀ x ∈ s.branch, (s.proposed E body r).bodyOf x = s.bodyOf x := by
      refine fun x hx => bodyOf_cons_of_ne rfl ?_
      rintro rfl
      exact hfresh hx
    have hold : (s.proposed E body r).ordersOn s.branch = s.ordersOn s.branch :=
      ordersOn_congr (fun x hx => by rw [Ordered, hbody x hx]; rfl) hbody
    have horders := O.orders_eq
    rw [pending, hadded] at horders
    have hnone : (s.proposed E body r).ordersOn [r.heap.hash r.bLeaf] = [] := by
      refine ordersOn_eq_nil fun x hx hordered => hnew ?_
      rw [← List.mem_singleton.mp hx]
      exact hordered.1
    rw [orders, hbranch, ordersOn_cons, hold, hnone]
    simpa [pending, Leader.proposed, Ordered, hnew, orders] using horders

/-! ### Other inputs -/

section
variable {i : Input} {r : Replica (NonspeculativeVMBridge σ)}

theorem mem_certified_after {x : Hash} : x ∈ (s.after E i r).certified ↔
    x ∈ s.certified ∨ ∃ b, Certifies E s.replica i b ∧ s.replica.heap.hash b = x := by
  simp only [Leader.after, List.mem_append, Option.mem_toList, Option.map_eq_some_iff,
    certifiedBy_eq_some_iff]

theorem Ordered.after {h : Hash} (hh : s.Ordered h) : (s.after E i r).Ordered h :=
  ⟨mem_certified_after.mpr (Or.inl hh.1), hh.2⟩

theorem InOrder.low_after (O : InOrder s) (W : WellFormed E s.replica)
    (hstep : Hotstuff.step E i s.replica = .ok r) {h : Hash} (hh : h ∈ (s.after E i r).certified) :
    ∃ x, r.heap.Settled x ∧ r.heap.hash x = h ∧ r.heap.height x ≤ r.heap.height r.hqc.1 := by
  have H := heap_step W hstep
  rcases mem_certified_after.mp hh with hold | ⟨b, hb, rfl⟩
  · obtain ⟨x, hset, hhash, hx⟩ := O.low h hold
    refine ⟨x, H.settled hset, (H.hash_eq hset).trans hhash, ?_⟩
    rw [H.height_eq hset]
    exact hx.trans (hqc_le_step W hstep)
  · have hset := hb.settled W
    exact ⟨b, H.settled hset, H.hash_eq hset, hb.height_le W hstep⟩

/-- What an input that does not propose does to the leaf. -/
theorem leaf_after (W : WellFormed E s.replica) (hstep : Hotstuff.step E i s.replica = .ok r)
    (hi : ¬ (i = .doPropose ∨ i = .doEmptyPropose)) :
    (r.bLeaf = s.replica.bLeaf ∧ r.hqc = s.replica.hqc) ∨
      ∃ b, Raises E s.replica i b ∧ r.bLeaf = b ∧ r.hqc.1 = b := by
  cases leaf_step W hstep with
  | stay _ hhqc hleaf => exact Or.inl ⟨hleaf, hhqc⟩
  | raise hr hhqc hleaf => exact Or.inr ⟨_, hr, hleaf, hhqc⟩
  | mint h => exact absurd h hi

/-- **The branch is cut at its top at most**, and above every certified block. -/
theorem InOrder.branch_after (O : InOrder s) (W : WellFormed E s.replica)
    (hstep : Hotstuff.step E i s.replica = .ok r) (hi : ¬ (i = .doPropose ∨ i = .doEmptyPropose))
    (N : NoCollision r) (hin : s.InTime E i) :
    (s.after E i r).branch <:+ s.branch ∧
      ∀ h ∈ s.branch, h ∈ (s.after E i r).certified → h ∈ (s.after E i r).branch := by
  have W' := (step_cases W hstep).1
  have H := heap_step W hstep
  have N₀ := N.of_step W hstep
  have hbranch : (s.after E i r).branch = r.heap.path r.bLeaf := rfl
  rw [hbranch]
  rcases leaf_after W hstep hi with ⟨hleaf, -⟩ | ⟨b, hr, hleaf, hhqc⟩
  · rw [hleaf, path_step W hstep W.leaf_settled]
    exact ⟨List.suffix_refl _, fun _ hh _ => hh⟩
  · have hset := hr.certifies.settled W
    have hmem := (hin b hr.certifies).1 hr
    rw [hleaf, path_step W hstep hset]
    refine ⟨path_suffix_of_mem N₀ W W.leaf_settled hset hmem, fun h hh hcertified => ?_⟩
    obtain ⟨y, hy, hpos, rfl⟩ := (mem_path W).mp hh
    obtain ⟨z, hz, -, hzb⟩ := (mem_path W).mp hmem
    have hysettled := W.shape.settled_descends W.leaf_settled hy
    have hzsettled := W.shape.settled_descends W.leaf_settled hz
    -- a certified block is not above the new leaf
    obtain ⟨x, hxset, hxhash, hx⟩ := O.low_after W hstep hcertified
    rw [← H.hash_eq hysettled] at hxhash
    rw [N.height_eq W' hxset (H.settled hysettled) hxhash, hhqc, H.height_eq hysettled,
      H.height_eq hset, ← N₀.height_eq W hzsettled hset hzb] at hx
    rw [← N₀.path_eq W hzsettled hset hzb]
    exact (mem_path W).mpr ⟨y, W.forest.descends_of_height_le hz hy hx, hpos, rfl⟩

theorem InOrder.hqc_le_after (O : InOrder s) (W : WellFormed E s.replica)
    (hstep : Hotstuff.step E i s.replica = .ok r)
    (hi : ¬ (i = .doPropose ∨ i = .doEmptyPropose)) :
    r.heap.height r.hqc.1 ≤ r.heap.height r.bLeaf := by
  have H := heap_step W hstep
  rcases leaf_after W hstep hi with ⟨hleaf, hhqc⟩ | ⟨b, -, hleaf, hhqc⟩
  · rw [hleaf, hhqc, H.height_eq W.hqc_settled, H.height_eq W.leaf_settled]
    exact O.hqc_le
  · rw [hleaf, hhqc]

/-- The block that is waited for is on top of the branch, if it is there at all. -/
theorem InOrder.branch_eq_of_mem (O : InOrder s) (W : WellFormed E s.replica)
    (N : NoCollision s.replica) {body : Text} {h : Hash} {own : Bool}
    (hwait : s.handling = .waiting body h own) (hmem : h ∈ s.branch) :
    ∃ l, s.branch = h :: l ∧ h ∉ l := by
  obtain ⟨p, q, hparent, rfl, hsuffix⟩ := O.top body h own hwait
  have hnodup := nodup_path N W (Or.inr ⟨q, hparent⟩)
  rw [W.path_of_parent hparent] at hsuffix hnodup
  have htail := (List.nodup_cons.mp hnodup).1
  rcases List.suffix_cons_iff.mp hsuffix with heq | htl
  · exact ⟨_, heq, htail⟩
  · exact absurd (htl.subset hmem) htail

/-- Once it is certified, it is there. -/
theorem InOrder.mem_branch_of_certified (O : InOrder s) (W : WellFormed E s.replica)
    (hstep : Hotstuff.step E i s.replica = .ok r) (hi : ¬ (i = .doPropose ∨ i = .doEmptyPropose))
    (N : NoCollision r) (hin : s.InTime E i) {body : Text} {h : Hash} {own : Bool}
    (hwait : s.handling = .waiting body h own) (hh : h ∈ (s.after E i r).certified) :
    h ∈ s.branch := by
  have W' := (step_cases W hstep).1
  have H := heap_step W hstep
  obtain ⟨p, q, hparent, rfl, hsuffix⟩ := O.top body _ own hwait
  have hset : s.replica.heap.Settled p := Or.inr ⟨q, hparent⟩
  -- it is not above the leaf, so the branch is all that is below it
  obtain ⟨x, hxset, hxhash, hx⟩ := O.low_after W hstep hh
  rw [← H.hash_eq hset] at hxhash
  rw [N.height_eq W' hxset (H.settled hset) hxhash, H.height_eq hset] at hx
  have hleaf := O.hqc_le_after W hstep hi
  have hbelow := (O.branch_after W hstep hi N hin).1.length_le
  have hlength : (s.after E i r).branch.length = r.heap.height r.bLeaf := W'.length_path
  have hheight : (s.replica.heap.path p).length = s.replica.heap.height p := W.length_path
  have heq := hsuffix.eq_of_length_le (by omega)
  rw [heq, W.path_of_parent hparent]
  exact List.mem_cons_self

/-- **A certificate orders the block that is waited for, or nothing.** -/
theorem InOrder.orders_after (O : InOrder s) (W : WellFormed E s.replica)
    (hstep : Hotstuff.step E i s.replica = .ok r) (hi : ¬ (i = .doPropose ∨ i = .doEmptyPropose))
    (N : NoCollision r) (hin : s.InTime E i) :
    (s.after E i r).orders = s.confirmed_hashes.map some ++ (s.after E i r).pending := by
  have N₀ := N.of_step W hstep
  obtain ⟨hsuffix, hkept⟩ := O.branch_after W hstep hi N hin
  -- what is cut off is not certified
  have hcut : (s.after E i r).orders = (s.after E i r).ordersOn s.branch := by
    obtain ⟨cut, hcut⟩ := hsuffix
    have hnodup : s.branch.Nodup := nodup_path N₀ W W.leaf_settled
    rw [← hcut, ordersOn_append, ordersOn_eq_nil (l := cut), List.append_nil, orders]
    intro x hx hordered
    rw [← hcut] at hnodup hkept
    exact List.disjoint_of_nodup_append hnodup hx
      (hkept x (List.mem_append_left _ hx) hordered.1)
  rw [hcut]
  have horders := O.orders_eq
  by_cases hnew : ∃ h ∈ s.branch, (s.after E i r).Ordered h ∧ ¬ s.Ordered h
  · obtain ⟨h, hmem, hordered, hnot⟩ := hnew
    have hfirst : h ∉ s.certified := fun hold => hnot ⟨hold, hordered.2⟩
    obtain ⟨b, hb, rfl⟩ := (mem_certified_after.mp hordered.1).resolve_left hfirst
    obtain ⟨body, own, hwait⟩ := ((hin b hb).2 hmem hordered.2).resolve_left hfirst
    obtain ⟨l, hl, hnotin⟩ := O.branch_eq_of_mem W N₀ hwait hmem
    have hold : (s.after E i r).ordersOn l = s.ordersOn l := by
      refine ordersOn_congr (fun x hx => ⟨fun hx' => ?_, Ordered.after⟩) fun _ _ => rfl
      rcases mem_certified_after.mp hx'.1 with hold | ⟨c, hc, rfl⟩
      · exact ⟨hold, hx'.2⟩
      · rw [hc.unique hb] at hx
        exact absurd hx hnotin
    rw [pending, hwait] at horders
    dsimp only at horders
    rw [if_neg hnot, orders, hl, ordersOn_cons, ordersOn_eq_nil (l := [_]), List.append_nil] at horders
    · rw [hl, ordersOn_cons, hold, horders, pending, show (s.after E i r).handling = _ from hwait]
      simp [ordersOn, hordered]
    · intro x hx
      rwa [List.mem_singleton.mp hx]
  · push Not at hnew
    have hiff : ∀ x ∈ s.branch, (s.after E i r).Ordered x ↔ s.Ordered x :=
      fun x hx => ⟨hnew x hx, Ordered.after⟩
    have hpending : (s.after E i r).pending = s.pending := by
      unfold pending
      rw [show (s.after E i r).handling = s.handling from rfl]
      cases hwait : s.handling with
      | waiting body h own =>
          have hsame : (s.after E i r).Ordered h ↔ s.Ordered h :=
            ⟨fun hordered => hnew h
              (O.mem_branch_of_certified W hstep hi N hin hwait hordered.1) hordered, Ordered.after⟩
          simp only [hsame]
          rfl
      | _ => rfl
    rw [ordersOn_congr hiff fun _ _ => rfl, hpending]
    exact horders

theorem InOrder.after (O : InOrder s) (W : WellFormed E s.replica)
    (hstep : Hotstuff.step E i s.replica = .ok r) (hi : ¬ (i = .doPropose ∨ i = .doEmptyPropose))
    (N : NoCollision r) (hin : s.InTime E i) : InOrder (s.after E i r) where
  latest := by
    intro h hh
    rcases latestNewQc_step W hstep with heq | ⟨b, hb, heq, -⟩
    · exact mem_certified_after.mpr (Or.inl (O.latest h (heq ▸ hh)))
    · rw [show (s.after E i r).replica.latestNewQc = _ from heq] at hh
      exact mem_certified_after.mpr (Or.inr ⟨b, hb, Option.some.inj hh⟩)
  low := fun h hh => O.low_after W hstep hh
  hqc_le := O.hqc_le_after W hstep hi
  top := by
    intro body h own hwait
    obtain ⟨p, q, hparent, hhash, hsuffix⟩ := O.top body h own hwait
    have H := heap_step W hstep
    have hset : s.replica.heap.Settled p := Or.inr ⟨q, hparent⟩
    refine ⟨p, q, H.parent_mono hparent, (H.hash_eq hset).trans hhash, ?_⟩
    rw [show (s.after E i r).replica.heap.path p = _ from path_step W hstep hset]
    exact (O.branch_after W hstep hi N hin).1.trans hsuffix
  own := O.own
  acknowledged := by
    intro body hbody
    obtain ⟨h, hh, hmem⟩ := O.acknowledged body hbody
    exact ⟨h, mem_certified_after.mpr (Or.inl hh), hmem⟩
  orders_eq := O.orders_after W hstep hi N hin

end

/-! ## Runs -/

/-- What an act does, with what it is enabled by. -/
theorem step_forms {a : LeaderAct} {s' : Leader σ} (h : step E a s = .ok s') :
    (∃ body, a = .post body ∧ s.handling = .idle ∧ s' = s.added body) ∨
    (∃ body r, a = .propose ∧ s.handling = .added body ∧
      Hotstuff.step E .doPropose s.replica = .ok r ∧ s' = s.proposed E body r) ∨
    (∃ body expected_hash own latest_new_qc hash, a = .answer ∧
      s.handling = .waiting body expected_hash own ∧ s.replica.latestNewQc = some latest_new_qc ∧
      hash_string_substr body = some hash ∧
      s' = s.answered body hash (latest_new_qc = expected_hash)) ∨
    (∃ i r, a = .input i ∧ ¬ (i = .doPropose ∨ i = .doEmptyPropose) ∧
      Hotstuff.step E i s.replica = .ok r ∧ s' = s.after E i r) := by
  cases a with
  | post body =>
      unfold step at h
      dsimp only at h
      split at h
      · rename_i hidle
        exact Or.inl ⟨body, rfl, hidle.1, (Except.ok.inj h).symm⟩
      · cases h
  | propose =>
      unfold step at h
      dsimp only at h
      split at h
      · rename_i body hadded
        split at h
        · cases h
        · rename_i r hr
          exact Or.inr (Or.inl ⟨body, r, rfl, hadded, hr, (Except.ok.inj h).symm⟩)
      · cases h
  | answer =>
      unfold step at h
      dsimp only at h
      split at h
      · rename_i body expected_hash own latest_new_qc hwait hlatest
        split at h
        · cases h
        · rename_i hash hhash
          exact Or.inr (Or.inr (Or.inl ⟨body, expected_hash, own, latest_new_qc, hash, rfl, hwait,
            hlatest, hhash, (Except.ok.inj h).symm⟩))
      · cases h
  | input i =>
      unfold step at h
      dsimp only at h
      split at h
      · cases h
      · rename_i hi
        split at h
        · cases h
        · rename_i r hr
          exact Or.inr (Or.inr (Or.inr ⟨i, r, rfl, hi, hr, (Except.ok.inj h).symm⟩))

/-- **Run theorem**: over a run whose acts all meet the condition. -/
theorem inOrder_of_reach {B I : Type} {M : VMType B I σ}
    (hvm : E.vm = NonspeculativeVMBridge.vmBridge M)
    (h : Reach (step E) (Meets E) (Leader.start E) s) :
    WellFormed E s.replica ∧ (NoCollision s.replica → InOrder s) := by
  refine h.invariant (I := fun s => WellFormed E s.replica ∧ (NoCollision s.replica → InOrder s))
    ⟨WellFormed.start E, fun _ => InOrder.start E⟩ ?_
  rintro t u a ⟨W, hO⟩ hmeets hstep
  -- no two hashes collide before the act if none do after it
  rcases step_forms hstep with ⟨body, rfl, hidle, rfl⟩ | ⟨body, r, rfl, hadded, hr, rfl⟩ |
    ⟨body, expected_hash, own, latest_new_qc, hash, rfl, hwait, hlatest, hhash, rfl⟩ |
    ⟨i, r, rfl, hi, hr, rfl⟩
  · exact ⟨W.withQueue (fun _ he => Or.inl he) _ _ _ _ _ _ _,
      fun N => (hO ⟨N.header_eq, N.ne_zero⟩).added hidle body⟩
  · exact ⟨(step_cases W hr).1, fun N => (hO (N.of_step W hr)).proposed hvm W hr N hadded⟩
  · exact ⟨W.withQueue (fun _ he => Or.inl he) _ _ _ _ _ _ _,
      fun N => (hO ⟨N.header_eq, N.ne_zero⟩).answered hwait hlatest hhash hmeets⟩
  · exact ⟨(step_cases W hr).1, fun N => (hO (N.of_step W hr)).after W hr hi N hmeets⟩

/-- **What is acknowledged is what was ordered**, in every state of a run in which every request told
`true` had its body proposed, every non-empty block of the branch was certified while its request waited
and that request told `true`, and no certificate took the leader off its branch. -/
theorem acknowledged_is_ordered {B I : Type} {M : VMType B I σ}
    (hvm : E.vm = NonspeculativeVMBridge.vmBridge M)
    (h : Reach (step E) (Meets E) (Leader.start E) s) (N : NoCollision s.replica) : s.Faithful :=
  ((inOrder_of_reach hvm h).2 N).faithful

/-! ### A retried order, and a first order -/

/-- The leader of four replicas of the counting machine. -/
def countingFour : Setup (NonspeculativeVMBridge CountingVM) where
  crypto := Instance.crypto
  config := Instance.config 4
  selfId := 0
  secretKey := 0#512
  vm := NonspeculativeVMBridge.vmBridge CountingVM.vmType

/-- The vote of a replica for a block arrives and is processed. -/
def voteFor (h : Hash) (voter : ReplicaID) : List LeaderAct :=
  let vote : PartialCertificateWire := ⟨h, Instance.crypto.sign h (BitVec.ofNat 512 voter)⟩
  [.input (.voteMessage vote voter), .input (.netEvent (.vote vote voter)), .input (.event [])]

/-- The leader processes its proposal and its own vote, and the votes of two others. -/
def certify (h : Hash) : List LeaderAct :=
  [.input (.event []), .input (.event [])] ++ voteFor h 1 ++ voteFor h 2

/-- The request the client sends for an order. -/
def order : Text := appendBody (ascii "7c,1")

/-- The first request is answered when its block is certified. -/
def firstOrder : List LeaderAct := [.post order, .propose] ++ certify 1#256 ++ [.answer]

/-- Three others have voted for genesis, and the client sends one order until it is told `true`. Each of
the first three waits is ended by the certificate on the block before. -/
def retriedOrder : List LeaderAct :=
  voteFor 0#256 1 ++ voteFor 0#256 2 ++ voteFor 0#256 3 ++
    [.post order, .propose, .answer] ++ certify 1#256 ++
    [.post order, .propose, .answer] ++ certify 1001#256 ++
    [.post order, .propose, .answer] ++ certify 1001001#256 ++
    [.post order, .propose] ++ certify 1001002230#256 ++ [.answer]

/-- The test of `Meets`. -/
def meetsCheck (E : Setup (NonspeculativeVMBridge σ)) (s : Leader σ) : LeaderAct → Bool
  | .input i =>
    match certifiedBy E s.replica i with
    | none => true
    | some b =>
      let h := s.replica.heap.hash b
      decide (s.replica.heap.height s.replica.hqc.1 < s.replica.heap.height b → h ∈ s.branch) &&
        (decide (h ∉ s.branch) || decide (s.bodyOf h = []) || decide (h ∈ s.certified) ||
          match s.handling with
          | .waiting _ expected_hash _ => h == expected_hash
          | _ => false)
  | .answer =>
    match s.handling with
    | .waiting _ expected_hash own =>
      if s.replica.latestNewQc = some expected_hash then own else decide (¬ s.Ordered expected_hash)
    | _ => true
  | _ => true

theorem meets_of_check (s : Leader σ) (a : LeaderAct) (h : meetsCheck E s a = true) : Meets E s a := by
  cases a with
  | input i =>
      intro b hb
      rw [meetsCheck, certifiedBy_eq_some_iff.mpr hb] at h
      simp only [Bool.and_eq_true, Bool.or_eq_true, decide_eq_true_eq] at h
      obtain ⟨hraise, hfirst⟩ := h
      refine ⟨fun hr => hraise hr.height_lt, fun hmem hne => ?_⟩
      rcases hfirst with ((hnot | hnil) | hold) | hwait
      · exact absurd hmem hnot
      · exact absurd hnil hne
      · exact Or.inl hold
      · right
        split at hwait
        · rename_i body expected_hash own hhandling
          rw [eq_of_beq hwait]
          exact ⟨body, own, hhandling⟩
        · cases hwait
  | answer =>
      intro body expected_hash own hwait
      rw [meetsCheck, hwait] at h
      dsimp only at h
      split_ifs at h ⊢ with hlatest
      · exact h
      · exact of_decide_eq_true h
  | _ => trivial

/-- The fourth time, the order is in the block proposed for it. -/
theorem acknowledged_is_ordered_retried :
    ∃ s : Leader CountingVM, s.confirmed_hashes = [ascii "7c,1"] ∧ s.Faithful := by
  have hrun : (runListIf (step countingFour) (meetsCheck countingFour) retriedOrder
      (Leader.start countingFour)).map (fun s =>
        (s.confirmed_hashes, Instance.noCollisionCheck s.replica)) = some ([ascii "7c,1"], true) := by
    decide +kernel
  obtain ⟨s, hs, hobs⟩ := Option.map_eq_some_iff.mp hrun
  obtain ⟨hhashes, hcheck⟩ := Prod.mk.inj hobs
  exact ⟨s, hhashes, acknowledged_is_ordered rfl (Reach.of_runListIf meets_of_check hs)
    (Instance.noCollision_of_check hcheck)⟩

/-- The first request is told `true` for an empty block. -/
theorem empty_block_acknowledged : ¬ ∀ s : Leader CountingVM,
    Reach (step countingFour) anyInput (Leader.start countingFour) s → NoCollision s.replica →
      s.Faithful := by
  intro hall
  have hrun : (runListIf (step countingFour) (fun _ _ => true) firstOrder
      (Leader.start countingFour)).map (fun s =>
        (s.acknowledged, s.broadcast, Instance.noCollisionCheck s.replica)) =
      some ([order], [(1#256, [])], true) := by
    decide +kernel
  obtain ⟨s, hs, hobs⟩ := Option.map_eq_some_iff.mp hrun
  obtain ⟨hacknowledged, hobs⟩ := Prod.mk.inj hobs
  obtain ⟨hbroadcast, hcheck⟩ := Prod.mk.inj hobs
  have hreach := Reach.of_runListIf (P := anyInput) (fun _ _ _ => trivial) hs
  obtain ⟨h, -, hmem⟩ := (hall s hreach (Instance.noCollision_of_check hcheck)).certified order
    (by simp [hacknowledged])
  rw [hbroadcast, List.mem_singleton] at hmem
  exact absurd (Prod.mk.inj hmem).2 (by decide)

end Leader

end Fred.Darkpool
