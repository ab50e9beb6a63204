/-
# Fred.Darkpool.Server -- the dark pool's order book

The server of the dark pool (server.js): the checks of `/sendOrder`, the two priority queues, the single
match attempt that follows every order, and the unfair path that trades against the order instead. The
prices stay the JavaScript values that the request carried, and every comparison of the server is
JavaScript's own on these values.

The main result (`book_sound`) is about whole runs of the server on the fair path. Where JavaScript
orders the price of every new order and the prices in its queue, and then the prices at the two fronts, as
the numbers they stand for, matched pairs cross, every accepted order is matched once or still queued, and
the book is uncrossed after every request. Two strings compare by their code units instead: the bid "9" is
matched with the ask "10" (`string_prices_cross`).
-/
import Fred.Lib.JsValue
import Fred.Lib.OrderBook
import Fred.Lib.Transition
import Mathlib.Data.List.Count
import Mathlib.Tactic.SplitIfs

namespace Fred.Darkpool

open Fred.JsValue Fred.OrderBook Fred.Transition

/-! ## Orders and queues -/

structure Order (N : Type*) where
  asset : Value N
  limitPrice : Value N
  side : Value N
  clientId : Value N
deriving DecidableEq

variable {N Q : Type*} [LinearOrder N] [NatCast N]

/-- What the server runs on: the reading of strings as numbers, and the two queues of the priority-queue
package, whose front is extreme under JavaScript's `<` on the limit price. -/
structure Runtime (N Q : Type*) [LinearOrder N] [NatCast N] where
  stringToNumber : List UInt16 → Option N
  maxPriorityQueue : PriorityQueue Q (Order N)
  minPriorityQueue : PriorityQueue Q (Order N)
  max_lawful : Lawful maxPriorityQueue
    fun p o => Value.lt stringToNumber o.limitPrice p.limitPrice
  min_lawful : Lawful minPriorityQueue
    fun p o => Value.lt stringToNumber p.limitPrice o.limitPrice

/-- The global variables of the server. `uploaded` lists the calls of `uploadMatchToAWS`, oldest first,
bid before ask. -/
structure Server (N Q : Type*) where
  currOrderNumber : ℕ
  bidsQueue : Q
  asksQueue : Q
  fairnessCoefficient : Value N
  lastClientId : ℕ
  uploaded : List (Order N × Order N)

inductive Request (N : Type*) where
  | getState
  | getNewClientId
  | setFairness (fairnessCoefficient : Value N)
  /-- An order, with the number that `Math.random()` returns while it is handled. -/
  | sendOrder (order : Order N) (random : N)

inductive Response (N : Type*) where
  | error (status : ℕ) (message : String)
  | state (bidsInPool asksInPool : List (Order N))
  | clientId (id : ℕ)
  | fairnessCoefficient (value : Value N)
  | orderNumber (number : ℕ)

namespace Runtime

variable (E : Runtime N Q)

def lt (v w : Value N) : Bool := v.lt E.stringToNumber w

def start : Server N Q where
  currOrderNumber := 0
  bidsQueue := E.maxPriorityQueue.empty
  asksQueue := E.minPriorityQueue.empty
  fairnessCoefficient := .number (1 : ℕ)
  lastClientId := 0
  uploaded := []

/-- The orders queued on each side. -/
def bids (s : Server N Q) : List (Order N) := E.maxPriorityQueue.toArray s.bidsQueue

@[inherit_doc bids]
def asks (s : Server N Q) : List (Order N) := E.minPriorityQueue.toArray s.asksQueue

/-! ## The handlers -/

/-- The error that `/sendOrder` answers an order with, if any. -/
def refusal (order : Order N) : Option (Response N) :=
  if order.clientId = .undefined then
    some (.error 400 "You must specify an clientId in each order")
  else if E.lt order.clientId (.number (0 : ℕ)) then some (.error 400 "invalid clientId")
  else if !order.asset.truthy then some (.error 400 "You must specify an asset in each order")
  else if order.asset ≠ .literal "AAPL" then
    some (.error 403 "Sorry, but that asset class isn't yet supported :(")
  else if order.limitPrice = .undefined then
    some (.error 400 "You must specify an limitPrice in each order")
  else if E.lt order.limitPrice (.number (0 : ℕ)) then
    some (.error 400 "Limit price must be positive")
  else if !order.side.truthy then some (.error 400 "You must specify an side for each order")
  else if order.side ≠ .literal "BID" ∧ order.side ≠ .literal "ASK" then
    some (.error 400 "the side must be either BID or ASK")
  else none

def uploadMatchToAWS (bidOrder askOrder : Order N) (s : Server N Q) : Server N Q :=
  { s with uploaded := s.uploaded ++ [(bidOrder, askOrder)] }

def checkForMatches (s : Server N Q) : Server N Q :=
  match E.maxPriorityQueue.front s.bidsQueue, E.minPriorityQueue.front s.asksQueue with
  | some bidOrder, some askOrder =>
    if bidOrder.limitPrice.ge E.stringToNumber askOrder.limitPrice then
      uploadMatchToAWS bidOrder askOrder
        { s with
          bidsQueue := E.maxPriorityQueue.dequeue s.bidsQueue
          asksQueue := E.minPriorityQueue.dequeue s.asksQueue }
    else s
  | _, _ => s

def frontRun (order : Order N) (s : Server N Q) : Server N Q :=
  let spoofOrder := { order with clientId := .number s.lastClientId }
  let s := { s with lastClientId := s.lastClientId + 1 }
  if order.side = .literal "BID" then
    uploadMatchToAWS order { spoofOrder with side := .literal "ASK" } s
  else uploadMatchToAWS { spoofOrder with side := .literal "BID" } order s

def enqueue (order : Order N) (s : Server N Q) : Server N Q :=
  if order.side = .literal "BID" then
    { s with bidsQueue := E.maxPriorityQueue.enqueue s.bidsQueue order }
  else { s with asksQueue := E.minPriorityQueue.enqueue s.asksQueue order }

def sendOrder (order : Order N) (random : N) (s : Server N Q) : Response N × Server N Q :=
  match E.refusal order with
  | some error => (error, s)
  | none =>
    let counted := { s with currOrderNumber := s.currOrderNumber + 1 }
    if E.lt (.number random) s.fairnessCoefficient then
      (.orderNumber s.currOrderNumber, E.checkForMatches (E.enqueue order counted))
    else (.orderNumber s.currOrderNumber, frontRun order counted)

def setFairness (coefficient : Value N) (s : Server N Q) : Response N × Server N Q :=
  if coefficient = .undefined then
    (.error 400 "You must specify an fairnessCoefficient in each call", s)
  else if E.lt coefficient (.number (0 : ℕ)) ∨ coefficient.gt E.stringToNumber (.number (1 : ℕ)) then
    (.error 400 "fairnessCoefficient must be in the range [0,1]", s)
  else (.fairnessCoefficient coefficient, { s with fairnessCoefficient := coefficient })

def serve (request : Request N) (s : Server N Q) : Response N × Server N Q :=
  match request with
  | .getState => (.state (E.bids s) (E.asks s), s)
  | .getNewClientId => (.clientId s.lastClientId, { s with lastClientId := s.lastClientId + 1 })
  | .setFairness coefficient => E.setFairness coefficient s
  | .sendOrder order random => E.sendOrder order random s

end Runtime

/-! ## Runs of the server -/

/-- The server with the requests it has answered, oldest first. -/
structure Pool (N Q : Type*) where
  server : Server N Q
  answered : List (Request N × Response N)

/-- The order that an answered request has placed. -/
def placed : Request N × Response N → Option (Order N)
  | (.sendOrder order _, .orderNumber _) => some order
  | _ => none

/-- The orders accepted so far. -/
def Pool.accepted (pool : Pool N Q) : List (Order N) := pool.answered.filterMap placed

namespace Runtime

variable (E : Runtime N Q)

def opened : Pool N Q := ⟨E.start, []⟩

/-- One request; the server answers every request. -/
def turn (request : Request N) (pool : Pool N Q) : Except Empty (Pool N Q) :=
  let (response, server) := E.serve request pool.server
  .ok ⟨server, pool.answered ++ [(request, response)]⟩

/-- The price of an order, as a number. -/
def price (order : Order N) : WithBot N := order.limitPrice.numeric E.stringToNumber

/-- The bid is priced below the ask, so the two are not to be matched. -/
def Apart (bid ask : Order N) : Prop := E.price bid < E.price ask

/-- The requests that the result is about: an order that `/sendOrder` accepts is priced by a number or a
numeric string, and takes the fair path. -/
def OnFairPath (pool : Pool N Q) : Request N → Prop
  | .sendOrder order random => E.refusal order = none →
      order.limitPrice.IsNumeric E.stringToNumber ∧
        E.lt (.number random) pool.server.fairnessCoefficient = true
  | _ => True

/-- What the queue of its side holds when an order arrives. -/
def ownQueue (order : Order N) (s : Server N Q) : List (Order N) :=
  if order.side = .literal "BID" then E.bids s else E.asks s

/-- The prices at the two fronts compare as numbers. -/
def FrontsCompare (s : Server N Q) : Prop :=
  ∀ bidOrder askOrder, E.maxPriorityQueue.front s.bidsQueue = some bidOrder →
    E.minPriorityQueue.front s.asksQueue = some askOrder →
      bidOrder.limitPrice.OrderedAsNumbers E.stringToNumber askOrder.limitPrice

/-- The price of an order that `/sendOrder` accepts compares with each price of its queue as a number, and
so do the prices at the fronts once it has joined. It need not be one of these two: an order behind its
front has the match attempt compare two orders that may never have been compared. -/
def ComparesAsNumber (pool : Pool N Q) : Request N → Prop
  | .sendOrder order _ => E.refusal order = none →
      (∀ queued ∈ E.ownQueue order pool.server,
        order.limitPrice.OrderedAsNumbers E.stringToNumber queued.limitPrice) ∧
      E.FrontsCompare (E.enqueue order pool.server)
  | _ => True

/-- The book the dark pool is to keep, after it has accepted `accepted`. -/
structure Sound (accepted : List (Order N)) (s : Server N Q) : Prop where
  bid_side : ∀ b ∈ E.bids s, b.side = .literal "BID"
  ask_side : ∀ a ∈ E.asks s, a.side = .literal "ASK"
  /-- A match is between a bid and an ask that meet in price. -/
  matched : ∀ pair ∈ s.uploaded, pair.1.side = .literal "BID" ∧ pair.2.side = .literal "ASK" ∧
    pair.1.limitPrice.IsNumeric E.stringToNumber ∧ pair.2.limitPrice.IsNumeric E.stringToNumber ∧
    E.price pair.2 ≤ E.price pair.1
  /-- Every accepted order is matched once or still queued. -/
  conserved : accepted.Perm
    (E.bids s ++ E.asks s ++ s.uploaded.flatMap fun pair => [pair.1, pair.2])
  uncrossed : Uncrossed E.price (E.bids s) (E.asks s)

variable {E}

section

omit [LinearOrder N] [NatCast N]

variable {c : Prop} [Decidable c] {error response : Response N} {checks : Option (Response N)}

/-- A check that has passed leaves the answer to the checks after it. -/
theorem passed_of_none (h : (if c then some error else checks) = none) : ¬c ∧ checks = none := by
  split at h
  · cases h
  · exact ⟨‹¬c›, h⟩

/-- The answer is the error of this check or of one after it. -/
theorem refused_cases (h : (if c then some error else checks) = some response) :
    error = response ∨ checks = some response := by
  split at h
  · exact .inl (Option.some.inj h)
  · exact .inr h

end

/-- An accepted order is a bid or an ask. -/
theorem side_of_not_refused {order : Order N} (h : E.refusal order = none) :
    order.side = .literal "BID" ∨ order.side = .literal "ASK" := by
  unfold refusal at h
  -- seven checks stand before the one on the side
  iterate 7 obtain ⟨-, h⟩ := passed_of_none h
  obtain ⟨hside, -⟩ := passed_of_none h
  by_contra hneither
  exact hside (not_or.mp hneither)

/-- A refused order is answered with an error. -/
theorem placed_of_refused {order : Order N} {random : N} {response : Response N}
    (h : E.refusal order = some response) :
    placed (.sendOrder order random, response) = none := by
  unfold refusal at h
  iterate 8
    obtain rfl | h := refused_cases h
    · rfl
  cases h

/-- Prices that are numbers compare as these. -/
theorem apart_of_lt {bid ask : Order N} {x y : N} (hx : E.price bid = x) (hy : E.price ask = y)
    (hlt : x < y) : E.Apart bid ask := by
  unfold Apart
  rw [hx, hy]
  exact WithBot.coe_lt_coe.mpr hlt

theorem Apart.not_meet {bid ask : Order N} (h : E.Apart bid ask) : ¬ E.price ask ≤ E.price bid :=
  not_le.mpr h

/-! ## One match attempt -/

/-- What the server keeps of its orders apart from the order of the two sides. -/
structure Queued (accepted : List (Order N)) (s : Server N Q) : Prop where
  bid_side : ∀ b ∈ E.bids s, b.side = .literal "BID"
  ask_side : ∀ a ∈ E.asks s, a.side = .literal "ASK"
  numeric : ∀ o ∈ E.bids s ++ E.asks s, o.limitPrice.IsNumeric E.stringToNumber
  bids_ordered : ∀ o ∈ E.bids s, ∀ p ∈ E.bids s,
    o.limitPrice.OrderedAsNumbers E.stringToNumber p.limitPrice
  asks_ordered : ∀ o ∈ E.asks s, ∀ p ∈ E.asks s,
    o.limitPrice.OrderedAsNumbers E.stringToNumber p.limitPrice
  matched : ∀ pair ∈ s.uploaded, pair.1.side = .literal "BID" ∧ pair.2.side = .literal "ASK" ∧
    pair.1.limitPrice.IsNumeric E.stringToNumber ∧ pair.2.limitPrice.IsNumeric E.stringToNumber ∧
    E.price pair.2 ≤ E.price pair.1
  conserved : accepted.Perm
    (E.bids s ++ E.asks s ++ s.uploaded.flatMap fun pair => [pair.1, pair.2])

/-- One order has joined an uncrossed book. -/
def Joined (order : Order N) (s : Server N Q) : Prop :=
  (∃ bids, (E.bids s).Perm (order :: bids) ∧ Uncrossed E.price bids (E.asks s)) ∨
    (∃ asks, (E.asks s).Perm (order :: asks) ∧ Uncrossed E.price (E.bids s) asks)

/-- The bid and the ask at the fronts of the queues leave them as a match. -/
structure Matched (bidOrder askOrder : Order N) (s s' : Server N Q) : Prop where
  bid_front : E.maxPriorityQueue.front s.bidsQueue = some bidOrder
  ask_front : E.minPriorityQueue.front s.asksQueue = some askOrder
  meet : bidOrder.limitPrice.ge E.stringToNumber askOrder.limitPrice = true
  bids_perm : (bidOrder :: E.bids s').Perm (E.bids s)
  asks_perm : (askOrder :: E.asks s').Perm (E.asks s)
  uploaded_eq : s'.uploaded = s.uploaded ++ [(bidOrder, askOrder)]

/-- What one call of `checkForMatches` does. -/
theorem checkForMatches_cases (s : Server N Q) :
    (∃ bidOrder askOrder, E.Matched bidOrder askOrder s (E.checkForMatches s)) ∨
      (E.checkForMatches s = s ∧ ∀ bidOrder askOrder,
        E.maxPriorityQueue.front s.bidsQueue = some bidOrder →
        E.minPriorityQueue.front s.asksQueue = some askOrder →
        bidOrder.limitPrice.ge E.stringToNumber askOrder.limitPrice = false) := by
  unfold checkForMatches
  split
  · rename_i bidOrder askOrder hbid hask
    split
    · rename_i hge
      exact .inl ⟨bidOrder, askOrder, hbid, hask, hge, E.max_lawful.dequeue_perm _ _ hbid,
        E.min_lawful.dequeue_perm _ _ hask, rfl⟩
    · rename_i hge
      refine .inr ⟨rfl, fun b a hb ha => ?_⟩
      obtain rfl : bidOrder = b := Option.some.inj (hbid.symm.trans hb)
      obtain rfl : askOrder = a := Option.some.inj (hask.symm.trans ha)
      simpa using hge
  · rename_i hnone
    exact .inr ⟨rfl, fun b a hb ha => (hnone b a hb ha).elim⟩

section Attempt

variable {accepted : List (Order N)} {s : Server N Q}

/-- `>=` on the prices at the fronts is the order of the numbers, where these compare as numbers. -/
theorem Queued.ge_iff (h : E.Queued accepted s) (hfronts : E.FrontsCompare s) {b a : Order N}
    (hb : E.maxPriorityQueue.front s.bidsQueue = some b)
    (ha : E.minPriorityQueue.front s.asksQueue = some a) :
    b.limitPrice.ge E.stringToNumber a.limitPrice = true ↔ E.price a ≤ E.price b := by
  have hbid : b ∈ E.bids s := (E.max_lawful.dequeue_perm _ _ hb).subset (by simp)
  have hask : a ∈ E.asks s := (E.min_lawful.dequeue_perm _ _ ha).subset (by simp)
  exact Value.ge_iff (h.numeric b (List.mem_append_left _ hbid))
    (h.numeric a (List.mem_append_right _ hask)) (hfronts b a hb ha)

/-- The front of the bids has the highest price. -/
theorem Queued.front_bid (h : E.Queued accepted s) {bid : Order N}
    (hfront : E.maxPriorityQueue.front s.bidsQueue = some bid) :
    ∀ b ∈ E.bids s, E.price b ≤ E.price bid := by
  refine E.max_lawful.front_best E.price (fun o ho p hp => ?_) hfront
  exact (h.bids_ordered o ho p hp).1

/-- The front of the asks has the lowest price. -/
theorem Queued.front_ask (h : E.Queued accepted s) {ask : Order N}
    (hfront : E.minPriorityQueue.front s.asksQueue = some ask) :
    ∀ a ∈ E.asks s, E.price ask ≤ E.price a := by
  refine E.min_lawful.front_best (fun o => OrderDual.toDual (E.price o))
    (fun o ho p hp => ?_) hfront
  exact (h.asks_ordered p hp o ho).1

/-- A match attempt keeps what the server knows of its orders. -/
theorem Queued.checkForMatches (h : E.Queued accepted s) (hfronts : E.FrontsCompare s) :
    E.Queued accepted (E.checkForMatches s) := by
  obtain ⟨bid, ask, hm⟩ | ⟨heq, -⟩ := E.checkForMatches_cases s
  · have hbids : E.bids (E.checkForMatches s) ⊆ E.bids s :=
      fun b hb => hm.bids_perm.subset (List.mem_cons_of_mem _ hb)
    have hasks : E.asks (E.checkForMatches s) ⊆ E.asks s :=
      fun a ha => hm.asks_perm.subset (List.mem_cons_of_mem _ ha)
    have hboth : E.bids (E.checkForMatches s) ++ E.asks (E.checkForMatches s) ⊆
        E.bids s ++ E.asks s := by
      intro o ho
      exact (List.mem_append.mp ho).elim (fun hb => List.mem_append_left _ (hbids hb))
        (fun ha => List.mem_append_right _ (hasks ha))
    have hbid : bid ∈ E.bids s := hm.bids_perm.subset (by simp)
    have hask : ask ∈ E.asks s := hm.asks_perm.subset (by simp)
    refine ⟨fun b hb => h.bid_side b (hbids hb), fun a ha => h.ask_side a (hasks ha),
      fun o ho => h.numeric o (hboth ho), fun o ho p hp => h.bids_ordered o (hbids ho) p (hbids hp),
      fun o ho p hp => h.asks_ordered o (hasks ho) p (hasks hp), fun pair hpair => ?_, ?_⟩
    · rw [hm.uploaded_eq, List.mem_append, List.mem_singleton] at hpair
      obtain hold | rfl := hpair
      · exact h.matched pair hold
      · exact ⟨h.bid_side bid hbid, h.ask_side ask hask,
          h.numeric bid (List.mem_append_left _ hbid), h.numeric ask (List.mem_append_right _ hask),
          (h.ge_iff hfronts hm.bid_front hm.ask_front).mp hm.meet⟩
    · -- the two fronts move from the queues to the matches
      refine h.conserved.trans ?_
      rw [hm.uploaded_eq, List.flatMap_append]
      have hperm := (hm.bids_perm.symm.append hm.asks_perm.symm).append_right
        (s.uploaded.flatMap fun pair => [pair.1, pair.2])
      refine hperm.trans ?_
      classical
      rw [List.perm_iff_count]
      intro o
      simp only [List.flatMap_cons, List.flatMap_nil, List.append_nil, List.count_append,
        List.count_cons, List.count_nil]
      omega
  · rwa [heq]

/-- **One attempt is enough.** After it, a book that one order has joined is uncrossed again. -/
theorem Queued.uncrossed_checkForMatches {order : Order N} (h : E.Queued accepted s)
    (hfronts : E.FrontsCompare s) (hjoined : E.Joined order s) :
    Uncrossed E.price (E.bids (E.checkForMatches s)) (E.asks (E.checkForMatches s)) := by
  obtain ⟨bid, ask, hm⟩ | ⟨heq, hapart⟩ := E.checkForMatches_cases s
  · -- only the new order can have crossed, so its match uncrosses the book
    have hcross : E.price ask ≤ E.price bid :=
      (h.ge_iff hfronts hm.bid_front hm.ask_front).mp hm.meet
    obtain ⟨bids, hperm, hold⟩ | ⟨asks, hperm, hold⟩ := hjoined
    · exact hold.after_bid (hm.bids_perm.trans hperm) hm.asks_perm hcross
    · exact hold.after_ask hm.bids_perm (hm.asks_perm.trans hperm) hcross
  · -- no match: the best bid is below the best ask
    rw [heq]
    intro b hb a ha
    obtain ⟨bid, hbid⟩ : ∃ bid, E.maxPriorityQueue.front s.bidsQueue = some bid :=
      Option.ne_none_iff_exists'.mp fun hnone =>
        List.ne_nil_of_mem hb (E.max_lawful.front_eq_none _ hnone)
    obtain ⟨ask, hask⟩ : ∃ ask, E.minPriorityQueue.front s.asksQueue = some ask :=
      Option.ne_none_iff_exists'.mp fun hnone =>
        List.ne_nil_of_mem ha (E.min_lawful.front_eq_none _ hnone)
    have hlt : E.price bid < E.price ask := by
      rw [← not_le, ← h.ge_iff hfronts hbid hask, hapart bid ask hbid hask]
      simp
    exact uncrossed_of_best (h.front_bid hbid) (h.front_ask hask) hlt b hb a ha

end Attempt

/-! ## One request -/

omit [LinearOrder N] [NatCast N] in
theorem bid_ne_ask : (Value.literal "BID" : Value N) ≠ .literal "ASK" := by
  simp only [Value.literal, ne_eq, Value.string.injEq]
  decide

section Arrival

variable {accepted : List (Order N)} {s : Server N Q} {order : Order N}

/-- An order joins the queue of its side; nothing else changes. -/
theorem enqueue_cases (s : Server N Q) (hside : order.side = .literal "BID" ∨
    order.side = .literal "ASK") :
    (order.side = .literal "BID" ∧ (E.bids (E.enqueue order s)).Perm (order :: E.bids s) ∧
      E.asks (E.enqueue order s) = E.asks s) ∨
    (order.side = .literal "ASK" ∧ E.bids (E.enqueue order s) = E.bids s ∧
      (E.asks (E.enqueue order s)).Perm (order :: E.asks s)) := by
  obtain hbid | hask := hside
  · left
    simp only [enqueue, if_pos hbid]
    exact ⟨hbid, E.max_lawful.enqueue_perm _ _, rfl⟩
  · right
    have hne : order.side ≠ .literal "BID" := hask ▸ bid_ne_ask.symm
    simp only [enqueue, if_neg hne]
    exact ⟨hask, rfl, E.min_lawful.enqueue_perm _ _⟩

/-- The two queues hold the new order and what they held. -/
theorem enqueue_perm (s : Server N Q) (hside : order.side = .literal "BID" ∨
    order.side = .literal "ASK") :
    (E.bids (E.enqueue order s) ++ E.asks (E.enqueue order s)).Perm
      (order :: (E.bids s ++ E.asks s)) := by
  obtain ⟨-, hbids, hasks⟩ | ⟨-, hbids, hasks⟩ := E.enqueue_cases s hside
  · rw [hasks]
    exact hbids.append_right _
  · rw [hbids]
    exact (hasks.append_left _).trans List.perm_middle

theorem uploaded_enqueue (s : Server N Q) : (E.enqueue order s).uploaded = s.uploaded := by
  unfold enqueue
  split <;> rfl

/-- The order number is not read. -/
theorem enqueue_counted (s : Server N Q) (number : ℕ) :
    E.enqueue order { s with currOrderNumber := number } =
      { E.enqueue order s with currOrderNumber := number } := by
  unfold enqueue
  split <;> rfl

/-- A price that compares with every price of a queue, and these with each other. -/
theorem ordered_cons {queued : List (Order N)}
    (hnew : ∀ o ∈ queued, order.limitPrice.OrderedAsNumbers E.stringToNumber o.limitPrice)
    (hold : ∀ o ∈ queued, ∀ p ∈ queued,
      o.limitPrice.OrderedAsNumbers E.stringToNumber p.limitPrice) :
    ∀ o ∈ order :: queued, ∀ p ∈ order :: queued,
      o.limitPrice.OrderedAsNumbers E.stringToNumber p.limitPrice := by
  intro o ho p hp
  obtain rfl | hoold := List.mem_cons.mp ho
  · obtain rfl | hpold := List.mem_cons.mp hp
    · exact Value.orderedAsNumbers_self _
    · exact hnew p hpold
  · obtain rfl | hpold := List.mem_cons.mp hp
    · exact (hnew o hoold).symm
    · exact hold o hoold p hpold

/-- **An order that compares as a number with those of its queue joins the book.** -/
theorem Queued.enqueue (h : E.Queued accepted s)
    (hside : order.side = .literal "BID" ∨ order.side = .literal "ASK")
    (hnumeric : order.limitPrice.IsNumeric E.stringToNumber)
    (hordered : ∀ queued ∈ E.ownQueue order s,
      order.limitPrice.OrderedAsNumbers E.stringToNumber queued.limitPrice) :
    E.Queued (accepted ++ [order]) (E.enqueue order s) := by
  have hperm := E.enqueue_perm s hside
  have hmem : ∀ o ∈ E.bids (E.enqueue order s) ++ E.asks (E.enqueue order s),
      o = order ∨ o ∈ E.bids s ++ E.asks s := by
    intro o ho
    exact List.mem_cons.mp (hperm.subset ho)
  have hcases := E.enqueue_cases s hside
  refine ⟨fun b hb => ?_, fun a ha => ?_, fun o ho => ?_, ?_, ?_, ?_, ?_⟩
  · -- a queue is as before or has the new order in front, by the order's side
    obtain ⟨hbid, hbids, -⟩ | ⟨-, hbids, -⟩ := hcases
    · obtain rfl | hold := List.mem_cons.mp (hbids.subset hb)
      · exact hbid
      · exact h.bid_side b hold
    · exact h.bid_side b (hbids ▸ hb)
  · obtain ⟨-, -, hasks⟩ | ⟨hask, -, hasks⟩ := hcases
    · exact h.ask_side a (hasks ▸ ha)
    · obtain rfl | hold := List.mem_cons.mp (hasks.subset ha)
      · exact hask
      · exact h.ask_side a hold
  · obtain rfl | hold := hmem o ho
    · exact hnumeric
    · exact h.numeric o hold
  · obtain ⟨hbid, hbids, -⟩ | ⟨-, hbids, -⟩ := hcases
    · rw [ownQueue, if_pos hbid] at hordered
      exact fun o ho p hp => ordered_cons hordered h.bids_ordered o (hbids.subset ho) p (hbids.subset hp)
    · rw [hbids]
      exact h.bids_ordered
  · obtain ⟨-, -, hasks⟩ | ⟨hask, -, hasks⟩ := hcases
    · rw [hasks]
      exact h.asks_ordered
    · have hne : order.side ≠ .literal "BID" := hask ▸ bid_ne_ask.symm
      rw [ownQueue, if_neg hne] at hordered
      exact fun o ho p hp => ordered_cons hordered h.asks_ordered o (hasks.subset ho) p (hasks.subset hp)
  · rw [uploaded_enqueue]
    exact h.matched
  · rw [uploaded_enqueue]
    have hjoin : (accepted ++ [order]).Perm (order :: accepted) := List.perm_append_singleton ..
    refine (hjoin.trans (h.conserved.cons order)).trans ?_
    exact (hperm.symm.append_right _)

theorem joined_enqueue (huncrossed : Uncrossed E.price (E.bids s) (E.asks s))
    (hside : order.side = .literal "BID" ∨ order.side = .literal "ASK") :
    E.Joined order (E.enqueue order s) := by
  obtain ⟨-, hbids, hasks⟩ | ⟨-, hbids, hasks⟩ := E.enqueue_cases s hside
  · exact .inl ⟨E.bids s, hbids, by rwa [hasks]⟩
  · exact .inr ⟨E.asks s, hasks, by rwa [hbids]⟩

end Arrival

/-! ## The run -/

/-- The invariant of the run: the server keeps its orders, in an uncrossed book. -/
structure Kept (pool : Pool N Q) : Prop where
  queued : E.Queued pool.accepted pool.server
  uncrossed : Uncrossed E.price (E.bids pool.server) (E.asks pool.server)

theorem kept_opened : E.Kept E.opened := by
  have hbids : E.bids E.start = [] := E.max_lawful.toArray_empty
  have hasks : E.asks E.start = [] := E.min_lawful.toArray_empty
  constructor
  · constructor <;> simp only [opened, Pool.accepted, hbids, hasks, List.nil_append]
    all_goals simp [start]
  · simp [Uncrossed, opened, hbids]

theorem Queued.sound {accepted : List (Order N)} {s : Server N Q} (h : E.Queued accepted s)
    (huncrossed : Uncrossed E.price (E.bids s) (E.asks s)) : E.Sound accepted s :=
  ⟨h.bid_side, h.ask_side, h.matched, h.conserved, huncrossed⟩

omit [LinearOrder N] [NatCast N] in
/-- One more answer adds the order it placed, if it placed one. -/
theorem accepted_snoc {server : Server N Q} {answered : List (Request N × Response N)}
    {answer : Request N × Response N} : (⟨server, answered ++ [answer]⟩ : Pool N Q).accepted =
      answered.filterMap placed ++ (placed answer).toList := by
  unfold Pool.accepted
  rw [List.filterMap_append]
  cases h : placed answer <;> simp [h]

omit [LinearOrder N] [NatCast N] in
theorem accepted_snoc_of_none {server : Server N Q} {answered : List (Request N × Response N)}
    {answer : Request N × Response N} (h : placed answer = none) :
    (⟨server, answered ++ [answer]⟩ : Pool N Q).accepted = answered.filterMap placed := by
  rw [accepted_snoc, h]
  exact List.append_nil _

/-- The queues and the matches are all that the invariant reads of the server. -/
theorem Kept.congr {pool pool' : Pool N Q} (h : E.Kept pool)
    (hbids : pool'.server.bidsQueue = pool.server.bidsQueue)
    (hasks : pool'.server.asksQueue = pool.server.asksQueue)
    (huploaded : pool'.server.uploaded = pool.server.uploaded)
    (haccepted : pool'.accepted = pool.accepted) : E.Kept pool' := by
  have hb : E.bids pool'.server = E.bids pool.server := by simp only [bids, hbids]
  have ha : E.asks pool'.server = E.asks pool.server := by simp only [asks, hasks]
  refine ⟨⟨?_, ?_, ?_, ?_, ?_, ?_, ?_⟩, ?_⟩
  all_goals simp only [hb, ha, huploaded, haccepted]
  exacts [h.queued.bid_side, h.queued.ask_side, h.queued.numeric,
    h.queued.bids_ordered, h.queued.asks_ordered, h.queued.matched, h.queued.conserved, h.uncrossed]

/-- **One request keeps the book.** -/
theorem Kept.turn {pool pool' : Pool N Q} {request : Request N} (h : E.Kept pool)
    (hfair : E.OnFairPath pool request) (hcompares : E.ComparesAsNumber pool request)
    (hturn : E.turn request pool = .ok pool') : E.Kept pool' := by
  obtain rfl := Except.ok.inj hturn
  rcases request with _ | _ | coefficient | ⟨order, random⟩
  · exact h.congr rfl rfl rfl (accepted_snoc_of_none rfl)
  · exact h.congr rfl rfl rfl (accepted_snoc_of_none rfl)
  · simp only [setFairness]
    split_ifs <;> exact h.congr rfl rfl rfl (accepted_snoc_of_none rfl)
  · cases hrefusal : E.refusal order with
    | some error =>
        simp only [sendOrder, hrefusal]
        exact h.congr rfl rfl rfl (accepted_snoc_of_none (placed_of_refused hrefusal))
    | none =>
        obtain ⟨hnumeric, hdraw⟩ := hfair hrefusal
        have hside := side_of_not_refused hrefusal
        -- the order number does not enter the book
        let counted := { pool.server with currOrderNumber := pool.server.currOrderNumber + 1 }
        have hcounted : E.Kept ⟨counted, pool.answered⟩ := h.congr rfl rfl rfl rfl
        obtain ⟨hown, hfronts⟩ := hcompares hrefusal
        have hjoins := hcounted.queued.enqueue hside hnumeric hown
        have hfronts : E.FrontsCompare (E.enqueue order counted) := by
          rw [enqueue_counted]
          exact hfronts
        have hjoined := joined_enqueue hcounted.uncrossed hside
        simp only [sendOrder, hrefusal, hdraw, if_true]
        constructor
        · rw [accepted_snoc]
          exact hjoins.checkForMatches hfronts
        · exact hjoins.uncrossed_checkForMatches hfronts hjoined

end Runtime

/-- **The book over a run.** In every run of the server whose accepted orders are priced by numbers or
numeric strings, take the fair path, and compare as numbers with the prices of their queue and across the
two fronts, the book is sound in every state reached: matched pairs meet in price, every accepted order is
matched once or still queued, and the bids are below the asks. -/
theorem book_sound (E : Runtime N Q) {pool : Pool N Q}
    (hrun : Reach E.turn (fun p r => E.OnFairPath p r ∧ E.ComparesAsNumber p r) E.opened pool) :
    E.Sound pool.accepted pool.server := by
  have hkept : E.Kept pool :=
    hrun.invariant E.kept_opened fun p p' r h hP hturn => h.turn hP.1 hP.2 hturn
  exact hkept.queued.sound hkept.uncrossed

/-! ## Runs on whole-number prices -/

/-- The number that a string of decimal digits reads as. -/
def wholeNumber (s : List UInt16) : Option ℤ :=
  if s.all fun c => 48 ≤ c && c ≤ 57 then
    some (s.foldl (fun value c => 10 * value + (c.toNat - 48)) 0)
  else none

/-- A runtime whose queues keep the orders in order of arrival. -/
def wholeRuntime : Runtime ℤ (List (Order ℤ)) where
  stringToNumber := wholeNumber
  maxPriorityQueue := arrivalQueue fun p o => Value.lt wholeNumber o.limitPrice p.limitPrice
  minPriorityQueue := arrivalQueue fun p o => Value.lt wholeNumber p.limitPrice o.limitPrice
  max_lawful := arrivalQueue_lawful _
  min_lawful := arrivalQueue_lawful _

/-- An order for the asset of the pool. -/
def orderAt (side : String) (limitPrice : Value ℤ) (clientId : ℤ) : Order ℤ where
  asset := .literal "AAPL"
  limitPrice := limitPrice
  side := .literal side
  clientId := .number clientId

/-- The pool with one bid in the book, and the pool that has matched it with an ask. -/
def oneBid (bid : Order ℤ) : Pool ℤ (List (Order ℤ)) where
  server := { wholeRuntime.start with currOrderNumber := 1, bidsQueue := [bid] }
  answered := [(.sendOrder bid 0, .orderNumber 0)]

@[inherit_doc oneBid]
def oneMatch (bid ask : Order ℤ) : Pool ℤ (List (Order ℤ)) where
  server := { wholeRuntime.start with currOrderNumber := 2, uploaded := [(bid, ask)] }
  answered := [(.sendOrder bid 0, .orderNumber 0), (.sendOrder ask 0, .orderNumber 1)]

/-- A bid and then an ask that meets it. -/
theorem reach_oneMatch {P : Pool ℤ (List (Order ℤ)) → Request ℤ → Prop} {bid ask : Order ℤ}
    (hbid : wholeRuntime.turn (.sendOrder bid 0) wholeRuntime.opened = .ok (oneBid bid))
    (hask : wholeRuntime.turn (.sendOrder ask 0) (oneBid bid) = .ok (oneMatch bid ask))
    (hP : P wholeRuntime.opened (.sendOrder bid 0)) (hP' : P (oneBid bid) (.sendOrder ask 0)) :
    Reach wholeRuntime.turn P wholeRuntime.opened (oneMatch bid ask) :=
  ((Reach.refl _).tail hP hbid).tail hP' hask

/-- A bid at the number 10 and an ask at the string "9" are matched, in a sound book. -/
theorem book_sound_mixed :
    let bid := orderAt "BID" (.number 10) 0
    let ask := orderAt "ASK" (.literal "9") 1
    wholeRuntime.Sound [bid, ask] (oneMatch bid ask).server := by
  intro bid ask
  have hbid : bid.limitPrice.IsNumeric wholeNumber := .number 10
  have hask : ask.limitPrice.IsNumeric wholeNumber := .string _ 9 (by decide +kernel)
  refine book_sound wholeRuntime (reach_oneMatch rfl rfl ⟨fun _ => ⟨hbid, rfl⟩, fun _ => ?_⟩
    ⟨fun _ => ⟨hask, rfl⟩, fun _ => ?_⟩)
  · refine ⟨fun _ hqueued => absurd hqueued List.not_mem_nil, fun _ _ _ hnone => ?_⟩
    cases hnone
  · refine ⟨fun _ hqueued => absurd hqueued List.not_mem_nil, fun b a hb ha => ?_⟩
    obtain rfl : bid = b := Option.some.inj hb
    obtain rfl : ask = a := Option.some.inj ha
    exact Value.orderedAsNumbers_of_number 10 hask

/-- **Strings cross below their numbers.** A bid at "9" and an ask at "10", both sent the way the client
sends them, are matched. -/
theorem string_prices_cross :
    let bid := orderAt "BID" (.literal "9") 0
    let ask := orderAt "ASK" (.literal "10") 1
    Reach wholeRuntime.turn wholeRuntime.OnFairPath wholeRuntime.opened (oneMatch bid ask) ∧
      wholeRuntime.Apart bid ask ∧
      ¬ wholeRuntime.Sound [bid, ask] (oneMatch bid ask).server := by
  intro bid ask
  have hbid : bid.limitPrice.IsNumeric wholeNumber := .string _ 9 (by decide +kernel)
  have hask : ask.limitPrice.IsNumeric wholeNumber := .string _ 10 (by decide +kernel)
  have hlt : wholeRuntime.Apart bid ask := Runtime.apart_of_lt (x := 9) (y := 10) rfl rfl (by decide)
  refine ⟨reach_oneMatch rfl rfl (fun _ => ⟨hbid, rfl⟩) (fun _ => ⟨hask, rfl⟩), hlt, ?_⟩
  intro hsound
  obtain ⟨-, -, -, -, hmeet⟩ := hsound.matched (bid, ask) (List.mem_singleton.mpr rfl)
  exact hlt.not_meet hmeet

end Fred.Darkpool
