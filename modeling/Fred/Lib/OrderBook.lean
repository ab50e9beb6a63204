/-
# Fred.Lib.OrderBook -- priority queues and two-sided books

A priority queue is given by its operations. Its laws (`Lawful`) ask for an extreme element at the front
only when there is one: the comparison of a program may not be a strict order, and then a queue can be
without any. Where the comparison follows a rank, the front has the greatest rank (`Lawful.front_best`).

A two-sided book keeps its bids below its asks (`Uncrossed`). One order that joins an uncrossed book can
cross it, and then one match of the best bid with the best ask is enough to uncross it again
(`Uncrossed.after_bid`, `Uncrossed.after_ask`): the new order is one side of every crossing pair.
-/
import Mathlib.Data.List.MinMax
import Mathlib.Data.List.Perm.Basic

namespace Fred.OrderBook

/-! ## Priority queues -/

/-- The operations of a priority queue `Q` of elements of `α`. -/
structure PriorityQueue (Q α : Type*) where
  empty : Q
  enqueue : Q → α → Q
  front : Q → Option α
  dequeue : Q → Q
  toArray : Q → List α

variable {Q α R : Type*}

/-- No element of `l` stands above `o`, which is in `l`. -/
structure IsExtreme (above : α → α → Bool) (l : List α) (o : α) : Prop where
  mem : o ∈ l
  maximal : ∀ p ∈ l, above p o = false

/-- The laws of a priority queue whose elements compare by `above`. -/
structure Lawful (queue : PriorityQueue Q α) (above : α → α → Bool) : Prop where
  toArray_empty : queue.toArray queue.empty = []
  enqueue_perm : ∀ q o, (queue.toArray (queue.enqueue q o)).Perm (o :: queue.toArray q)
  front_eq_none : ∀ q, queue.front q = none → queue.toArray q = []
  dequeue_perm : ∀ q o, queue.front q = some o →
    (o :: queue.toArray (queue.dequeue q)).Perm (queue.toArray q)
  front_extreme : ∀ q o, queue.front q = some o →
    (∃ p, IsExtreme above (queue.toArray q) p) → IsExtreme above (queue.toArray q) o

section Rank

variable [LinearOrder R] {rank : α → R} {above : α → α → Bool}

/-- Where the comparison follows a rank, a list with an element has an extreme one. -/
theorem exists_isExtreme {l : List α} (hne : l ≠ [])
    (hrank : ∀ o ∈ l, ∀ p ∈ l, (above p o = true ↔ rank o < rank p)) :
    ∃ p, IsExtreme above l p := by
  obtain ⟨m, hm⟩ : ∃ m, l.argmax rank = some m :=
    Option.ne_none_iff_exists'.mp fun h => hne (List.argmax_eq_none.mp h)
  have hmem : m ∈ l := List.argmax_mem hm
  refine ⟨m, hmem, fun p hp => ?_⟩
  apply Bool.eq_false_iff.mpr
  intro habove
  exact List.not_lt_of_mem_argmax hp hm ((hrank m hmem p hp).mp habove)

/-- **The front has the greatest rank.** -/
theorem Lawful.front_best {queue : PriorityQueue Q α} (hlaw : Lawful queue above) (rank : α → R)
    {q : Q} {o : α}
    (hrank : ∀ o ∈ queue.toArray q, ∀ p ∈ queue.toArray q, (above p o = true ↔ rank o < rank p))
    (hfront : queue.front q = some o) : ∀ p ∈ queue.toArray q, rank p ≤ rank o := by
  intro p hp
  have hextreme : IsExtreme above (queue.toArray q) o :=
    hlaw.front_extreme q o hfront (exists_isExtreme (List.ne_nil_of_mem hp) hrank)
  apply not_lt.mp
  intro hlt
  have habove : above p o = true := (hrank o hextreme.mem p hp).mpr hlt
  simp [hextreme.maximal p hp] at habove

end Rank

/-- The first extreme element of `l`, or its head where no element is extreme. -/
def firstExtreme (above : α → α → Bool) (l : List α) : Option α :=
  (l.find? fun o => l.all fun p => !above p o).or l.head?

theorem firstExtreme_mem {above : α → α → Bool} {l : List α} {o : α}
    (h : firstExtreme above l = some o) : o ∈ l := by
  obtain h | ⟨-, h⟩ := Option.or_eq_some_iff.mp h
  · exact List.mem_of_find?_eq_some h
  · exact List.mem_of_head? h

theorem firstExtreme_isExtreme {above : α → α → Bool} {l : List α} {o m : α}
    (h : firstExtreme above l = some o) (hm : IsExtreme above l m) : IsExtreme above l o := by
  refine ⟨firstExtreme_mem h, ?_⟩
  obtain h | ⟨hnone, -⟩ := Option.or_eq_some_iff.mp h
  · simpa using List.find?_some h
  · -- an extreme element would have been found
    have hall : ∀ p ∈ l, above p m = false := hm.maximal
    exact absurd (by simpa using hall) (List.find?_eq_none.mp hnone m hm.mem)

/-- The queue that keeps its elements in order of arrival. -/
def arrivalQueue [DecidableEq α] (above : α → α → Bool) : PriorityQueue (List α) α where
  empty := []
  enqueue l o := l ++ [o]
  front l := firstExtreme above l
  dequeue l := (firstExtreme above l).elim l l.erase
  toArray l := l

theorem arrivalQueue_lawful [DecidableEq α] (above : α → α → Bool) :
    Lawful (arrivalQueue above) above where
  toArray_empty := rfl
  enqueue_perm _ _ := List.perm_append_comm
  front_eq_none l h := by
    obtain ⟨-, hnil⟩ := Option.or_eq_none_iff.mp h
    exact List.head?_eq_none_iff.mp hnil
  dequeue_perm l o h := by
    change firstExtreme above l = some o at h
    simp only [arrivalQueue, h, Option.elim_some]
    exact (List.perm_cons_erase (firstExtreme_mem h)).symm
  front_extreme l o h := fun ⟨_, hm⟩ => firstExtreme_isExtreme h hm

/-! ## Two-sided books -/

variable [LinearOrder R] (price : α → R)

/-- Every bid is priced below every ask. -/
def Uncrossed (bids asks : List α) : Prop :=
  ∀ b ∈ bids, ∀ a ∈ asks, price b < price a

variable {price} {bids asks : List α}

theorem Uncrossed.subset {bids' asks' : List α} (h : Uncrossed price bids asks)
    (hbids : bids' ⊆ bids) (hasks : asks' ⊆ asks) : Uncrossed price bids' asks' :=
  fun b hb a ha => h b (hbids hb) a (hasks ha)

/-- A book is uncrossed when its best bid is below its best ask. -/
theorem uncrossed_of_best {bid ask : α} (hbid : ∀ b ∈ bids, price b ≤ price bid)
    (hask : ∀ a ∈ asks, price ask ≤ price a) (hlt : price bid < price ask) :
    Uncrossed price bids asks :=
  fun b hb a ha => (hbid b hb).trans_lt (hlt.trans_le (hask a ha))

/-- **One match uncrosses a book that a bid has joined.** -/
theorem Uncrossed.after_bid {bids' asks' : List α} {o bid ask : α} (h : Uncrossed price bids asks)
    (hbids : (bid :: bids').Perm (o :: bids)) (hasks : (ask :: asks').Perm asks)
    (hcross : price ask ≤ price bid) : Uncrossed price bids' asks' := by
  have hask : ask ∈ asks := hasks.subset (by simp)
  -- the matched bid crosses, so it is the one that joined
  have hbid : bid = o := by
    obtain rfl | hold : bid = o ∨ bid ∈ bids := by
      simpa using hbids.subset (List.mem_cons_self ..)
    · rfl
    · exact absurd hcross (not_le.mpr (h bid hold ask hask))
  subst hbid
  apply h.subset hbids.cons_inv.subset
  exact fun a ha => hasks.subset (List.mem_cons_of_mem _ ha)

/-- **One match uncrosses a book that an ask has joined.** -/
theorem Uncrossed.after_ask {bids' asks' : List α} {o bid ask : α} (h : Uncrossed price bids asks)
    (hbids : (bid :: bids').Perm bids) (hasks : (ask :: asks').Perm (o :: asks))
    (hcross : price ask ≤ price bid) : Uncrossed price bids' asks' := by
  have hbid : bid ∈ bids := hbids.subset (by simp)
  have hask : ask = o := by
    obtain rfl | hold : ask = o ∨ ask ∈ asks := by
      simpa using hasks.subset (List.mem_cons_self ..)
    · rfl
    · exact absurd hcross (not_le.mpr (h bid hbid ask hold))
  subst hask
  refine h.subset (fun b hb => ?_) hasks.cons_inv.subset
  exact hbids.subset (List.mem_cons_of_mem _ hb)

end Fred.OrderBook
