/-
# Fred.Darkpool.Client -- the verdict of the client

The client (client.js) appends its order to the ledger, sends it to the dark pool, and polls the table of
fills; when it finds a fill for its asset, price and side, it asks the ledger for the position of the
filled order and reports front-running. What it compares that position with is the answer to its own
`/append`, which is no position: the leader answers `true`, and JavaScript compares `true` as the number
1.

The world of this module is the ledger of the leader, the table, and the clients that have appended;
appends, other requests and fills happen in any order. `verdict_iff` says in every reachable state when
the report is the comparison of the two positions.
-/
import Fred.Darkpool.Ledger
import Fred.Lib.JsValue
import Fred.Lib.Transition

namespace Fred.Darkpool

open Fred.Decimal Fred.JsValue Fred.Transition

/-- What the client runs on: the hex digest of its hash, and the reading of strings as numbers. -/
structure Host where
  sha256 : Text → Text
  stringToNumber : List UInt16 → Option ℤ

/-- A client after its `append` has returned. `ourIndex` is the variable of that name. -/
structure Client where
  asset : Text
  limitPrice : Text
  side : Text
  clientId : ℕ
  ourIndex : Value ℤ

/-- The JSON of a response body, as `response.data`; a text that is no JSON stays a string. -/
def data (body : Text) : Value ℤ :=
  if body = ascii "true" then .boolean true
  else if body = ascii "false" then .boolean false
  else
    match read body with
    | some n => .number n
    | none => .string (body.map UInt8.toUInt16)

@[simp] theorem data_answer (res : Bool) : data (answer res) = .boolean res := by
  cases res <;> decide

@[simp] theorem data_text (n : ℤ) : data (text n) = .number n := by
  have hread := read_text n
  have htrue : text n ≠ ascii "true" := by
    intro h
    rw [h, show read (ascii "true") = none by decide] at hread
    cases hread
  have hfalse : text n ≠ ascii "false" := by
    intro h
    rw [h, show read (ascii "false") = none by decide] at hread
    cases hread
  simp [data, htrue, hfalse, hread]

/-! ## The world -/

/-- The ledger of the leader, the table of fills by hash, and the clients that poll it. -/
structure World where
  confirmed_hashes : List Text
  table : Text → Option Text
  clients : List Client

inductive Event
  /-- A client appends its order. `handled` is the outcome of the wait for a quorum certificate, if the
  leader handles the request; `delivered` says that its answer reaches the client. -/
  | append (asset limitPrice side : Text) (clientId : ℕ) (handled : Option Bool) (delivered : Bool)
  /-- The leader handles any other `/append` request. -/
  | post (body : Text) (res : Bool)
  /-- The dark pool puts an item into the table. -/
  | fill (hash clientId : Text)

namespace Host

variable (H : Host)

def hashedOrder (asset limitPrice side : Text) (clientId : ℕ) : Text :=
  H.sha256 (asset ++ limitPrice ++ side) ++ ascii "," ++ naturalText clientId

/-- The ledger after the leader has handled a request; a body that makes the handler throw adds nothing. -/
def post_method_handler (body : Text) (res : Bool) (confirmed_hashes : List Text) : List Text :=
  match hash_string_substr body with
  | none => confirmed_hashes
  | some hash => push_back confirmed_hashes hash res

/-- What `append` returns: the parsed answer, or `undefined` when the request fails. -/
def append (handled : Option Bool) (delivered : Bool) : Value ℤ :=
  match handled with
  | none => .undefined
  | some res => if delivered then data (answer res) else .undefined

def step (event : Event) (w : World) : Except Empty World :=
  match event with
  | .append asset limitPrice side clientId handled delivered =>
    let body := appendBody (H.hashedOrder asset limitPrice side clientId)
    .ok { w with
      confirmed_hashes :=
        handled.elim w.confirmed_hashes fun res => post_method_handler body res w.confirmed_hashes
      clients := w.clients ++ [⟨asset, limitPrice, side, clientId, append handled delivered⟩] }
  | .post body res =>
    .ok { w with confirmed_hashes := post_method_handler body res w.confirmed_hashes }
  | .fill hash clientId =>
    .ok { w with table := fun h => if h = hash then some clientId else w.table h }

def start : World := ⟨[], fun _ => none, []⟩

/-! ## The verdict -/

/-- The client's own entry in the ledger. -/
def ownHash (c : Client) : Text := H.hashedOrder c.asset c.limitPrice c.side c.clientId

/-- The key of the client's poll, `hashedOrder.split(",")[0]`. -/
def filledKey (c : Client) : Text := (H.ownHash c).takeWhile (· ≠ 44)

/-- The ledger entry of the order that the found item names. -/
def filledHash (c : Client) (item : Text) : Text := H.filledKey c ++ ascii "," ++ item

/-- One poll of the table: whether the client reports front-running, if it finds an item. -/
def poll (w : World) (c : Client) : Option Bool :=
  match w.table (H.filledKey c) with
  | none => none
  | some item =>
    let filledIndex := data (get_method_handler w.confirmed_hashes (H.filledHash c item))
    some (c.ourIndex.lt H.stringToNumber filledIndex)

/-- Where the report is right: for an answered append, the position of the filled order is on the same
side of the client's own position and of the number that the answer compares as. -/
def PlacedRight (ourIndex : Value ℤ) (own filled : ℤ) : Prop :=
  match ourIndex with
  | .boolean res => filled ≤ min own (res.toNat : ℤ) ∨ max own (res.toNat : ℤ) < filled
  | _ => filled ≤ own

/-- What the run keeps of a client: its append was answered, and put its entry into the ledger where the
answer is `true`, or has failed. -/
def Answered (confirmed_hashes : List Text) (c : Client) : Prop :=
  c.ourIndex = .undefined ∨
    ∃ res, c.ourIndex = .boolean res ∧ (res = true → H.ownHash c ∈ confirmed_hashes)

variable {H}

/-- The ledger only grows. -/
theorem mem_post_method_handler {hash body : Text} {res : Bool} {confirmed_hashes : List Text}
    (h : hash ∈ confirmed_hashes) : hash ∈ post_method_handler body res confirmed_hashes := by
  unfold post_method_handler
  split
  · exact h
  · unfold push_back
    split
    · exact List.mem_append_left _ h
    · exact h

theorem Answered.mono {confirmed_hashes confirmed_hashes' : List Text} {c : Client}
    (h : H.Answered confirmed_hashes c) (hsub : confirmed_hashes ⊆ confirmed_hashes') :
    H.Answered confirmed_hashes' c := by
  obtain h | ⟨res, hindex, hmem⟩ := h
  · exact .inl h
  · exact .inr ⟨res, hindex, fun hres => hsub (hmem hres)⟩

/-- A client that has just appended is answered. -/
theorem answered_append (asset limitPrice side : Text) (clientId : ℕ) (handled : Option Bool)
    (delivered : Bool) (confirmed_hashes : List Text) :
    H.Answered
      (handled.elim confirmed_hashes fun res => post_method_handler
        (appendBody (H.hashedOrder asset limitPrice side clientId)) res confirmed_hashes)
      ⟨asset, limitPrice, side, clientId, append handled delivered⟩ := by
  obtain _ | res := handled
  · exact .inl rfl
  · cases delivered
    · exact .inl rfl
    · refine .inr ⟨res, by simp [append], fun hres => ?_⟩
      simp [post_method_handler, hash_string_substr_appendBody, push_back, hres, ownHash]

/-- One event keeps every client answered. -/
theorem answered_step {event : Event} {w w' : World} (hstep : H.step event w = .ok w')
    (h : ∀ c ∈ w.clients, H.Answered w.confirmed_hashes c) :
    ∀ c ∈ w'.clients, H.Answered w'.confirmed_hashes c := by
  rcases event with ⟨asset, limitPrice, side, clientId, handled, delivered⟩ | ⟨body, res⟩ | _
  · obtain rfl := Except.ok.inj hstep
    intro c hc
    obtain hold | rfl := by simpa using hc
    · refine (h c hold).mono fun hash hmem => ?_
      cases handled
      · exact hmem
      · exact mem_post_method_handler hmem
    · exact answered_append ..
  · obtain rfl := Except.ok.inj hstep
    exact fun c hc => (h c hc).mono fun _ hmem => mem_post_method_handler hmem
  · obtain rfl := Except.ok.inj hstep
    exact h

theorem answered_of_reach {w : World} (hrun : Reach H.step anyInput start w) :
    ∀ c ∈ w.clients, H.Answered w.confirmed_hashes c := by
  refine hrun.invariant ?_ fun _ _ _ h _ hstep => answered_step hstep h
  simp [start]

/-- The report compares the number of the answer, or nothing, with the position found. -/
theorem poll_iff {w : World} {c : Client} {item : Text} (h : H.Answered w.confirmed_hashes c)
    (hfound : w.table (H.filledKey c) = some item) :
    H.poll w c = some true ↔ ∃ res, c.ourIndex = .boolean res ∧
      (res.toNat : ℤ) < getIndex w.confirmed_hashes (H.filledHash c item) := by
  simp only [poll, hfound, get_method_handler, data_text, Option.some.injEq]
  obtain hundefined | ⟨res, hindex, -⟩ := h
  · simp [hundefined, Value.lt, Value.isLessThan, Value.toPrimitive, Value.toNumber]
  · simp [hindex, Value.lt, Value.isLessThan, Value.toPrimitive, Value.toNumber]

end Host

/-- **When the verdict is right.** In every world reached by appends, other requests and fills in any
order, a client that finds a fill reports front-running exactly when the filled order stands after its
own, if and only if the two positions are placed right for the answer it holds. -/
theorem verdict_iff (H : Host) {w : World} (hrun : Reach H.step anyInput Host.start w) {c : Client}
    (hc : c ∈ w.clients) {item : Text} (hfound : w.table (H.filledKey c) = some item) :
    (H.poll w c = some true ↔
        getIndex w.confirmed_hashes (H.ownHash c) <
          getIndex w.confirmed_hashes (H.filledHash c item)) ↔
      Host.PlacedRight c.ourIndex (getIndex w.confirmed_hashes (H.ownHash c))
        (getIndex w.confirmed_hashes (H.filledHash c item)) := by
  have hanswered := Host.answered_of_reach hrun c hc
  rw [Host.poll_iff hanswered hfound]
  generalize getIndex w.confirmed_hashes (H.filledHash c item) = filled
  generalize getIndex w.confirmed_hashes (H.ownHash c) = own
  obtain hundefined | ⟨res, hindex, -⟩ := hanswered
  · simp [hundefined, Host.PlacedRight]
  · simp only [hindex, Value.boolean.injEq, exists_eq_left', Host.PlacedRight]
    omega

/-- A host whose hash is known on one order: buying AAPL at 10. -/
def oneHash : Host where
  sha256 message :=
    if message = ascii "AAPL10BID" then
      ascii "00c3046b39c934971ee46d177fcee9acdf61323de9de474dee246581e6c28339"
    else []
  stringToNumber _ := none

/-- The append of that order by a client, confirmed and answered. -/
def appended (clientId : ℕ) : Event :=
  .append (ascii "AAPL") (ascii "10") (ascii "BID") clientId (some true) true

/-- The fill of that order for a client. -/
def filled (clientId : ℕ) : Event :=
  .fill (oneHash.sha256 (ascii "AAPL10BID")) (naturalText clientId)

/-- The client of that order, after the answer `true`. -/
def buyer (clientId : ℕ) : Client :=
  ⟨ascii "AAPL", ascii "10", ascii "BID", clientId, .boolean true⟩

/-- The world of three such clients, in order of their numbers, where one order is filled. -/
def threeBuyers (clientId : ℕ) : World where
  confirmed_hashes := [oneHash.ownHash (buyer 0), oneHash.ownHash (buyer 1), oneHash.ownHash (buyer 2)]
  table hash :=
    if hash = oneHash.sha256 (ascii "AAPL10BID") then some (naturalText clientId) else none
  clients := [buyer 0, buyer 1, buyer 2]

theorem step_appended (clientId : ℕ) (w : World) :
    oneHash.step (appended clientId) w = .ok { w with
      confirmed_hashes := w.confirmed_hashes ++ [oneHash.ownHash (buyer clientId)]
      clients := w.clients ++ [buyer clientId] } := by
  simp [Host.step, appended, Host.post_method_handler, hash_string_substr_appendBody, push_back,
    Host.append, buyer, Host.ownHash]

theorem reach_threeBuyers (clientId : ℕ) :
    Reach oneHash.step anyInput Host.start (threeBuyers clientId) := by
  have h := (((Reach.refl (P := anyInput) Host.start).tail trivial (step_appended 0 _)).tail trivial
    (step_appended 1 _)).tail trivial (step_appended 2 _)
  exact h.tail (i := filled clientId) trivial rfl

/-- The client in front reports the fill of the last one, and the report is right. -/
theorem verdict_iff_first : oneHash.poll (threeBuyers 2) (buyer 0) = some true ∧
    getIndex (threeBuyers 2).confirmed_hashes (oneHash.ownHash (buyer 0)) <
      getIndex (threeBuyers 2).confirmed_hashes
        (oneHash.filledHash (buyer 0) (naturalText 2)) := by
  have hmem : buyer 0 ∈ (threeBuyers 2).clients := by simp [threeBuyers]
  have hfound : (threeBuyers 2).table (oneHash.filledKey (buyer 0)) = some (naturalText 2) := by
    decide +kernel
  have hiff := verdict_iff oneHash (reach_threeBuyers 2) hmem hfound
  have hreports : oneHash.poll (threeBuyers 2) (buyer 0) = some true := by decide +kernel
  refine ⟨hreports, (hiff.mpr (Or.inr ?_)).mp hreports⟩
  decide +kernel

/-- **A client reports its own fill.** The third client's order is filled, and it reports front-running
although no order was filled but its own. -/
theorem own_fill_reported :
    Reach oneHash.step anyInput Host.start (threeBuyers 2) ∧ buyer 2 ∈ (threeBuyers 2).clients ∧
      oneHash.filledHash (buyer 2) (naturalText 2) = oneHash.ownHash (buyer 2) ∧
      oneHash.poll (threeBuyers 2) (buyer 2) = some true ∧
      ¬ getIndex (threeBuyers 2).confirmed_hashes (oneHash.ownHash (buyer 2)) <
        getIndex (threeBuyers 2).confirmed_hashes
          (oneHash.filledHash (buyer 2) (naturalText 2)) := by
  refine ⟨reach_threeBuyers 2, by simp [threeBuyers], ?_, ?_, ?_⟩ <;> decide +kernel

end Fred.Darkpool
