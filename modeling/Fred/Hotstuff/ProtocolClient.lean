/-
# Fred.Hotstuff.ProtocolClient -- messages to one other replica

`hotstuff_protocol_client.h` and `.cc`, with `nonblocking_rpc_client.h` and `async_worker.h`. Votes and
proposals are put on `work`; a thread takes all there is and sends one after the other, each as a call that
waits for its reply, and again on a new connection when anything throws.

So no message is handled at the other end before all earlier ones were, however often connections break and
calls are repeated, and as long as the object lives everything can still arrive (`client_delivers`). Its
destructor waits until `work` is empty, but neither for what the thread has taken nor for the thread, which
is detached. If the thread is connecting then, and does not succeed, it calls through a null `client`; and if
it has not returned when the members are destroyed, it goes on with them (`shutdown_crashes_iff`).

Messages are named by their numbers in the order of the calls of `propose` and `vote`; nothing looks into
them.
-/
import Fred.Lib.Transition
import Mathlib.Data.List.Range

namespace Fred.Hotstuff

open Fred.Transition

/-- Where the thread is in `run`, `do_work` and `try_action_void`. -/
inductive ClientPlace where
  /-- At the top of the loop of `run`. -/
  | taking
  /-- At the start of `do_work`. -/
  | starting (todo : List ℕ)
  /-- At the start of `try_action_void`. -/
  | sending (msg : ℕ) (rest : List ℕ)
  /-- In the loop of `wait_for_try_open_connection`. -/
  | dialing (msg : ℕ) (rest : List ℕ)
  /-- In the lambda, with a connection. -/
  | writing (msg : ℕ) (rest : List ℕ)
  /-- The call is written; `answered` once it was handled at the other end. -/
  | awaiting (msg : ℕ) (rest : List ℕ) (answered : Bool)
  /-- After a call without success. -/
  | failed (msg : ℕ) (rest : List ℕ)
  /-- `run` has returned. -/
  | returned
  deriving DecidableEq, Repr

structure ProtocolClient where
  work : List ℕ
  place : ClientPlace
  /-- `client` is not null. -/
  client : Bool
  doneFlag : Bool
  /-- The members are destroyed: `client` is null and the socket closed. -/
  released : Bool
  /-- How many messages were put on `work`. -/
  submitted : ℕ
  /-- Calls on connections that were cleared, which can still be handled. -/
  stale : List ℕ
  /-- What was handled at the other end, first to last. -/
  handled : List ℕ
  deriving DecidableEq, Repr

/-- What happens to a client. -/
inductive ClientEvent where
  /-- `propose` or `vote`. -/
  | submit
  /-- The thread gets past its next test. -/
  | proceed
  /-- `try_open_connection` succeeds or not. -/
  | dial (ok : Bool)
  /-- `write_message` succeeds or throws. -/
  | write (ok : Bool)
  /-- The other end handles the call. -/
  | handle
  /-- The other end handles a call of a connection that was cleared. -/
  | handleStale (k : ℕ)
  /-- The reply arrives. -/
  | reply
  /-- Waiting for the reply throws. -/
  | fail
  /-- The body of the destructor, which waits until there is no work. -/
  | destroy
  /-- The rest of the destructor: the members are destroyed. -/
  | release
  deriving DecidableEq, Repr

/-- What the thread does. -/
def ClientEvent.ofThread : ClientEvent → Bool
  | .proceed | .dial _ | .write _ | .reply | .fail => true
  | _ => false

inductive ClientError where
  /-- A call through a null pointer. -/
  | nullClient
  /-- A use of a member that was destroyed. -/
  | destroyedObject
  deriving DecidableEq, Repr

namespace ProtocolClient

def init : ProtocolClient := ⟨[], .taking, false, false, false, 0, [], []⟩

/-- The next round of the loop over `todo`. -/
def next : List ℕ → ClientPlace
  | [] => .taking
  | msg :: rest => .sending msg rest

/-- The lambda is called. -/
def call (msg : ℕ) (rest : List ℕ) (s : ProtocolClient) : Except ClientError ProtocolClient :=
  if s.client then .ok { s with place := .writing msg rest } else .error .nullClient

/-- The thread gets past its next test. It stays where it waits for something else. -/
def proceed (s : ProtocolClient) : Except ClientError ProtocolClient :=
  match s.place with
  | .taking =>
    if s.doneFlag then .ok { s with place := .returned }
    else if s.work = [] then .ok s
    else .ok { s with place := .starting s.work, work := [] }
  | .starting todo => .ok { s with place := if s.doneFlag then .taking else next todo }
  | .sending msg rest =>
    if s.client || s.doneFlag then s.call msg rest else .ok { s with place := .dialing msg rest }
  | .failed msg rest => .ok { s with place := if s.doneFlag then .taking else .sending msg rest }
  | _ => .ok s

/-- What happens while the members are there. -/
def act (e : ClientEvent) (s : ProtocolClient) : Except ClientError ProtocolClient :=
  match e, s.place with
  | .submit, _ =>
    -- nobody submits to an object that is gone
    .ok (if s.released then s
      else { s with work := s.work ++ [s.submitted], submitted := s.submitted + 1 })
  | .proceed, _ => s.proceed
  | .dial ok, .dialing msg rest =>
    -- the flag is tested after the attempt
    if ok || s.doneFlag then { s with client := ok }.call msg rest else .ok { s with client := ok }
  | .write true, .writing msg rest => .ok { s with place := .awaiting msg rest false }
  | .write false, .writing msg rest => .ok { s with client := false, place := .failed msg rest }
  | .handle, .awaiting msg rest false =>
    .ok { s with place := .awaiting msg rest true, handled := s.handled ++ [msg] }
  | .handleStale k, _ =>
    .ok { s with stale := s.stale.eraseIdx k, handled := s.handled ++ s.stale[k]?.toList }
  | .reply, .awaiting _ rest true => .ok { s with place := next rest }
  | .fail, .awaiting msg rest answered =>
    .ok { s with
      client := false
      place := .failed msg rest
      stale := if answered then s.stale else s.stale ++ [msg] }
  | .destroy, _ => .ok (if s.work = [] then { s with doneFlag := true } else s)
  | .release, _ => .ok (if s.doneFlag then { s with released := true } else s)
  | _, _ => .ok s

/-- Wherever the thread is before it has returned, the next thing it does is to use a member. -/
def step (e : ClientEvent) (s : ProtocolClient) : Except ClientError ProtocolClient :=
  if s.released ∧ e.ofThread ∧ s.place ≠ .returned then .error .destroyedObject else s.act e

end ProtocolClient

/-! ## Order -/

/-- The messages the thread has taken and not got through. -/
def ClientPlace.todo : ClientPlace → List ℕ
  | .taking | .returned => []
  | .starting todo => todo
  | .sending msg rest | .dialing msg rest | .writing msg rest | .failed msg rest => msg :: rest
  | .awaiting msg rest _ => msg :: rest

theorem ProtocolClient.todo_next (todo : List ℕ) : (next todo).todo = todo := by
  cases todo <;> rfl

/-- Nothing comes before anything earlier did. -/
def Gapless (handled : List ℕ) : Prop :=
  ∀ l i r, handled = l ++ i :: r → ∀ j < i, j ∈ l

theorem Gapless.concat {handled : List ℕ} {i : ℕ} (h : Gapless handled)
    (hi : ∀ j < i, j ∈ handled) : Gapless (handled ++ [i]) := by
  intro l k r heq j hj
  rcases List.eq_nil_or_concat r with rfl | ⟨r, last, rfl⟩
  · obtain ⟨rfl, hk⟩ := List.append_inj' heq rfl
    exact hi j (List.head_eq_of_cons_eq hk ▸ hj)
  · rw [List.concat_eq_append, ← List.cons_append, ← List.append_assoc] at heq
    exact h l k r (List.append_inj' heq rfl).1 j hj

/-- `f` is the number of messages the thread got through. -/
structure ClientInv (f : ℕ) (s : ProtocolClient) : Prop where
  todo_eq : s.place.todo = List.range' f s.place.todo.length
  work_eq : ∃ g, s.work = List.range' g s.work.length ∧ g + s.work.length = s.submitted ∧
    f + s.place.todo.length ≤ g ∧ (s.doneFlag = false → f + s.place.todo.length = g)
  acknowledged : ∀ i < f, i ∈ s.handled
  seen : ∀ i ∈ s.handled ++ s.stale, i ≤ f ∧ i < s.submitted
  answered : ∀ msg rest, s.place = .awaiting msg rest true → msg ∈ s.handled
  connected : (∃ msg rest, s.place = .writing msg rest) ∨
    (∃ msg rest answered, s.place = .awaiting msg rest answered) → s.client = true
  returned : s.place = .returned → s.doneFlag = true
  gapless : Gapless s.handled
  done : s.released = true → s.doneFlag = true

namespace ClientInv

open ProtocolClient

variable {f : ℕ} {s s' : ProtocolClient} {e : ClientEvent}

theorem init : ClientInv 0 .init where
  todo_eq := rfl
  work_eq := ⟨0, rfl, rfl, Nat.le_refl 0, fun _ => rfl⟩
  acknowledged := fun i hi => absurd hi (Nat.not_lt_zero i)
  seen := by simp [ProtocolClient.init]
  answered := nofun
  connected := by simp [ProtocolClient.init]
  returned := nofun
  gapless := by
    intro l i r h
    simp [ProtocolClient.init] at h
  done := nofun

/-- The thread moves on with the same messages. -/
theorem move {p : ClientPlace} {c : Bool} (I : ClientInv f s) (htodo : p.todo = s.place.todo)
    (hanswered : ∀ msg rest, p = .awaiting msg rest true → msg ∈ s.handled)
    (hconnected : (∃ msg rest, p = .writing msg rest) ∨
      (∃ msg rest answered, p = .awaiting msg rest answered) → c = true)
    (hreturned : p ≠ .returned) : ClientInv f { s with place := p, client := c } where
  todo_eq := by
    show p.todo = _
    rw [htodo]
    exact I.todo_eq
  work_eq := by
    show ∃ g, _ ∧ _ ∧ f + p.todo.length ≤ g ∧ (_ → f + p.todo.length = g)
    rw [htodo]
    exact I.work_eq
  acknowledged := I.acknowledged
  seen := I.seen
  answered := hanswered
  connected := hconnected
  returned := fun h => absurd h hreturned
  gapless := I.gapless
  done := I.done

/-- The thread gives up what it has taken. -/
theorem drop {p : ClientPlace} (I : ClientInv f s) (hp : p = .taking ∨ p = .returned)
    (hdone : s.doneFlag = true) : ClientInv f { s with place := p } where
  todo_eq := by rcases hp with rfl | rfl <;> rfl
  work_eq := by
    obtain ⟨g, hwork, hlen, hle, -⟩ := I.work_eq
    refine ⟨g, hwork, hlen, ?_, fun h => ?_⟩
    · have hnil : p.todo.length = 0 := by rcases hp with rfl | rfl <;> rfl
      show f + p.todo.length ≤ g
      omega
    · exact absurd (hdone.symm.trans h) (by simp)
  acknowledged := I.acknowledged
  seen := I.seen
  answered := by rcases hp with rfl | rfl <;> nofun
  connected := by rcases hp with rfl | rfl <;> simp
  returned := fun _ => hdone
  gapless := I.gapless
  done := I.done

/-- The message the thread is at. -/
theorem msg_eq {msg : ℕ} {rest : List ℕ} (I : ClientInv f s) (hp : s.place.todo = msg :: rest) :
    msg = f ∧ rest = List.range' (f + 1) rest.length ∧ f < s.submitted := by
  have h := I.todo_eq
  rw [hp, List.length_cons, List.range'_succ] at h
  obtain ⟨hmsg, hrest⟩ := List.cons.inj h
  obtain ⟨g, -, hlen, hle, -⟩ := I.work_eq
  rw [hp, List.length_cons] at hle
  exact ⟨hmsg, hrest, by omega⟩

/-- A call of the message the thread is at, or of an earlier one, is handled. -/
theorem handled {i : ℕ} (I : ClientInv f s) (hi : i ≤ f) (hlt : i < s.submitted) :
    ClientInv f { s with handled := s.handled ++ [i] } where
  todo_eq := I.todo_eq
  work_eq := I.work_eq
  acknowledged := fun j hj => List.mem_append_left _ (I.acknowledged j hj)
  seen := by
    intro j hj
    simp only [List.mem_append, List.mem_singleton] at hj
    rcases hj with (hj | rfl) | hj
    · exact I.seen j (List.mem_append_left _ hj)
    · exact ⟨hi, hlt⟩
    · exact I.seen j (List.mem_append_right _ hj)
  answered := fun msg rest h => List.mem_append_left _ (I.answered msg rest h)
  connected := I.connected
  returned := I.returned
  gapless := I.gapless.concat fun j hj => I.acknowledged j (by omega)
  done := I.done

/-- The calls on cleared connections are of the message the thread is at, or of earlier ones. -/
theorem withStale {stale : List ℕ} (I : ClientInv f s)
    (hstale : ∀ i ∈ stale, i ∈ s.stale ∨ i ≤ f ∧ i < s.submitted) :
    ClientInv f { s with stale := stale } where
  todo_eq := I.todo_eq
  work_eq := I.work_eq
  acknowledged := I.acknowledged
  seen := by
    intro i hi
    rcases List.mem_append.mp hi with hi | hi
    · exact I.seen i (List.mem_append_left _ hi)
    · rcases hstale i hi with hold | hnew
      · exact I.seen i (List.mem_append_right _ hold)
      · exact hnew
  answered := I.answered
  connected := I.connected
  returned := I.returned
  gapless := I.gapless
  done := I.done

theorem call {msg : ℕ} {rest : List ℕ} (I : ClientInv f s) (hp : s.place.todo = msg :: rest)
    (h : s.call msg rest = .ok s') : ClientInv f s' := by
  unfold ProtocolClient.call at h
  split_ifs at h with hclient
  obtain rfl := Except.ok.inj h
  exact I.move hp.symm (by simp) (fun _ => hclient) (by simp)

theorem proceed (I : ClientInv f s) (h : s.proceed = .ok s') : ClientInv f s' := by
  unfold ProtocolClient.proceed at h
  cases hp : s.place with
  | taking =>
      simp only [hp] at h
      split_ifs at h with hdone hwork
      · exact Except.ok.inj h ▸ I.drop (.inr rfl) hdone
      · exact Except.ok.inj h ▸ I
      · obtain rfl := Except.ok.inj h
        obtain ⟨g, heq, hlen, hle, hg⟩ := I.work_eq
        have hfg : f + 0 = g := by simpa [hp, ClientPlace.todo] using hg (by simpa using hdone)
        have hend : f + s.work.length = s.submitted := by omega
        refine ⟨?_, ⟨s.submitted, rfl, rfl, hend.le, fun _ => hend⟩, I.acknowledged, I.seen, nofun,
          by simp, nofun, I.gapless, I.done⟩
        show s.work = List.range' f s.work.length
        rw [← Nat.add_zero f, hfg]
        exact heq
  | starting todo =>
      simp only [hp] at h
      split_ifs at h with hdone
      · exact Except.ok.inj h ▸ I.drop (.inl rfl) hdone
      · obtain rfl := Except.ok.inj h
        refine I.move ?_ ?_ ?_ ?_
        · rw [hp]
          exact todo_next todo
        all_goals cases todo <;> simp [next]
  | sending msg rest =>
      simp only [hp] at h
      split_ifs at h
      · exact I.call (by rw [hp]; rfl) h
      · exact Except.ok.inj h ▸ I.move (by rw [hp]; rfl) (by simp) (by simp) (by simp)
  | failed msg rest =>
      simp only [hp] at h
      split_ifs at h with hdone
      · exact Except.ok.inj h ▸ I.drop (.inl rfl) hdone
      · exact Except.ok.inj h ▸ I.move (by rw [hp]; rfl) (by simp) (by simp) (by simp)
  | _ =>
      simp only [hp] at h
      exact Except.ok.inj h ▸ I

theorem act (I : ClientInv f s) (h : s.act e = .ok s') : ∃ f', ClientInv f' s' := by
  unfold ProtocolClient.act at h
  split at h
  · -- `submit`: the number of messages is the last one's
    obtain rfl := Except.ok.inj h
    split_ifs
    · exact ⟨f, I⟩
    obtain ⟨g, hwork, hlen, hle, hg⟩ := I.work_eq
    refine ⟨f, I.todo_eq, ⟨g, ?_, ?_, hle, hg⟩, I.acknowledged, fun i hi => ?_, I.answered,
      I.connected, I.returned, I.gapless, I.done⟩
    · show s.work ++ [s.submitted] = List.range' g (s.work ++ [s.submitted]).length
      rw [List.length_append, List.length_singleton, List.range'_concat, ← hwork, ← hlen,
        Nat.one_mul]
    · show g + (s.work ++ [s.submitted]).length = s.submitted + 1
      rw [List.length_append, List.length_singleton]
      omega
    · exact ⟨(I.seen i hi).1, Nat.lt_succ_of_lt (I.seen i hi).2⟩
  · exact ⟨f, I.proceed h⟩
  · rename_i ok msg rest hp
    split_ifs at h
    · exact ⟨f, (I.move rfl (by simp [hp]) (by simp [hp]) (by simp [hp])).call (by rw [hp]; rfl) h⟩
    · exact ⟨f, Except.ok.inj h ▸ I.move rfl (by simp [hp]) (by simp [hp]) (by simp [hp])⟩
  · rename_i msg rest hp
    have hclient : s.client = true := I.connected (.inl ⟨msg, rest, hp⟩)
    obtain rfl := Except.ok.inj h
    exact ⟨f, I.move (by rw [hp]; rfl) (by simp) (fun _ => hclient) (by simp)⟩
  · rename_i msg rest hp
    exact ⟨f, Except.ok.inj h ▸ I.move (by rw [hp]; rfl) (by simp) (by simp) (by simp)⟩
  · -- `handle`: the message the thread is at
    rename_i msg rest hp
    obtain ⟨rfl, -, hlt⟩ := I.msg_eq (by rw [hp]; rfl)
    have hclient : s.client = true := I.connected (.inr ⟨_, _, _, hp⟩)
    obtain rfl := Except.ok.inj h
    exact ⟨msg, (I.handled le_rfl hlt).move (by rw [hp]; rfl) (by simp) (fun _ => hclient) (by simp)⟩
  · -- `handleStale`
    rename_i k
    obtain rfl := Except.ok.inj h
    have J : ClientInv f { s with stale := s.stale.eraseIdx k } :=
      I.withStale fun i hi => Or.inl (List.mem_of_mem_eraseIdx hi)
    rcases hk : s.stale[k]? with _ | i
    · rw [Option.toList_none, List.append_nil]
      exact ⟨f, J⟩
    · obtain ⟨hi, hlt⟩ := I.seen i (List.mem_append_right _ (List.mem_of_getElem? hk))
      exact ⟨f, J.handled hi hlt⟩
  · -- `reply`: the thread got through one more
    rename_i msg rest hp
    obtain ⟨rfl, hrest, -⟩ := I.msg_eq (by rw [hp]; rfl)
    obtain ⟨g, hwork, hlen, hle, hg⟩ := I.work_eq
    rw [hp] at hle hg
    simp only [ClientPlace.todo, List.length_cons] at hle hg
    obtain rfl := Except.ok.inj h
    refine ⟨msg + 1, ?_, ⟨g, hwork, hlen, ?_, fun hdone => ?_⟩, ?_, ?_, ?_, ?_, ?_, I.gapless, I.done⟩
    · show (next rest).todo = _
      rw [todo_next]
      exact hrest
    · show msg + 1 + (next rest).todo.length ≤ g
      rw [todo_next]
      omega
    · show msg + 1 + (next rest).todo.length = g
      rw [todo_next]
      have := hg hdone
      omega
    · intro i hi
      rcases Nat.lt_succ_iff_lt_or_eq.mp hi with hi | rfl
      · exact I.acknowledged i hi
      · exact I.answered i rest hp
    · exact fun i hi => ⟨Nat.le_succ_of_le (I.seen i hi).1, (I.seen i hi).2⟩
    all_goals cases rest <;> simp [next]
  · -- `fail`
    rename_i msg rest answered hp
    obtain ⟨rfl, -, hlt⟩ := I.msg_eq (by rw [hp]; rfl)
    obtain rfl := Except.ok.inj h
    have J : ClientInv msg { s with stale := if answered then s.stale else s.stale ++ [msg] } := by
      refine I.withStale fun i hi => ?_
      split_ifs at hi
      · exact Or.inl hi
      · rcases List.mem_append.mp hi with hi | hi
        · exact Or.inl hi
        · obtain rfl := List.mem_singleton.mp hi
          exact Or.inr ⟨le_rfl, hlt⟩
    have htodo : (ClientPlace.failed msg rest).todo = s.place.todo := by
      rw [hp]
      rfl
    exact ⟨msg, J.move htodo (by simp) (by simp) (by simp)⟩
  · -- `destroy`
    obtain rfl := Except.ok.inj h
    refine ⟨f, ?_⟩
    split_ifs
    · obtain ⟨g, hwork, hlen, hle, -⟩ := I.work_eq
      exact ⟨I.todo_eq, ⟨g, hwork, hlen, hle, nofun⟩, I.acknowledged, I.seen, I.answered,
        I.connected, fun _ => rfl, I.gapless, fun _ => rfl⟩
    · exact I
  · -- `release`
    obtain rfl := Except.ok.inj h
    refine ⟨f, ?_⟩
    split_ifs with hdone
    · exact ⟨I.todo_eq, I.work_eq, I.acknowledged, I.seen, I.answered, I.connected, I.returned,
        I.gapless, fun _ => hdone⟩
    · exact I
  · exact ⟨f, Except.ok.inj h ▸ I⟩

/-- **Step lemma.** -/
theorem step (I : ClientInv f s) (h : s.step e = .ok s') : ∃ f', ClientInv f' s' := by
  unfold ProtocolClient.step at h
  split_ifs at h
  exact I.act h

theorem of_reach (h : Reach ProtocolClient.step anyInput .init s) : ∃ f, ClientInv f s :=
  h.invariant (I := fun s => ∃ f, ClientInv f s) ⟨0, ClientInv.init⟩ fun _ _ _ ⟨_, I⟩ _ hs => I.step hs

end ClientInv

/-! ## Calls through a null pointer -/

namespace ProtocolClient

variable {s t : ProtocolClient} {e : ClientEvent}

/-- The thread has a message to send and no connection. -/
def Connecting (s : ProtocolClient) : Prop :=
  (∃ msg rest, s.place = .sending msg rest ∧ s.client = false) ∨ ∃ msg rest, s.place = .dialing msg rest

theorem client_of_sending {msg : ℕ} {rest : List ℕ} (hc : ¬ Connecting s)
    (hp : s.place = .sending msg rest) : s.client = true := by
  by_contra hnull
  exact hc (Or.inl ⟨msg, rest, hp, by simpa using hnull⟩)

theorem call_throws {msg : ℕ} {rest : List ℕ} {x : ClientError} (h : s.call msg rest = .error x) :
    x = .nullClient ∧ s.client = false := by
  unfold call at h
  split_ifs at h with hclient
  exact ⟨(Except.error.inj h).symm, Bool.not_eq_true _ ▸ hclient⟩

/-- Only a thread that is connecting calls through a null pointer, and only when it is told to return. -/
theorem act_throws {x : ClientError} (h : act e s = .error x) :
    x = .nullClient ∧ s.doneFlag = true ∧ Connecting s := by
  unfold act at h
  split at h
  case h_2 =>
    -- `proceed`, at the start of `try_action_void`
    unfold proceed at h
    split at h
    case h_3 msg rest hp =>
      split_ifs at h with htest
      obtain ⟨hx, hclient⟩ := call_throws h
      exact ⟨hx, by simpa [hclient] using htest, Or.inl ⟨msg, rest, hp, hclient⟩⟩
    case h_1 => split_ifs at h
    all_goals cases h
  case h_3 ok msg rest hp =>
    -- `dial`
    split_ifs at h with htest
    obtain ⟨hx, hclient⟩ := call_throws h
    have hok : ok = false := hclient
    exact ⟨hx, by simpa [hok] using htest, Or.inr ⟨msg, rest, hp⟩⟩
  all_goals cases h

/-- What goes wrong. -/
theorem step_throws {x : ClientError} (h : step e s = .error x) :
    x = .nullClient ∧ s.doneFlag = true ∧ Connecting s ∨
      x = .destroyedObject ∧ s.released = true ∧ s.place ≠ .returned := by
  unfold step at h
  split_ifs at h with hgone
  · exact Or.inr ⟨(Except.error.inj h).symm, hgone.1, hgone.2.2⟩
  · exact Or.inl (act_throws h)

/-- A thread that is told to return can do so before anything is handled. -/
theorem returns (hdone : s.doneFlag = true) (hpresent : s.released = false) (hc : ¬ Connecting s) :
    ∃ events, (runList step events s).map (fun t => (t.place, t.handled)) =
      .ok (.returned, s.handled) := by
  cases hp : s.place with
  | taking => exact ⟨[.proceed], by simp [runList, step, act, hpresent, proceed, hp, hdone, Except.map]⟩
  | starting todo =>
      exact ⟨[.proceed, .proceed], by simp [runList, step, act, hpresent, proceed, hp, hdone, Except.map]⟩
  | sending msg rest =>
      have hclient := client_of_sending hc hp
      exact ⟨[.proceed, .write false, .proceed, .proceed],
        by simp [runList, step, act, hpresent, proceed, call, hp, hdone, hclient, Except.map]⟩
  | dialing msg rest => exact absurd (Or.inr ⟨msg, rest, hp⟩) hc
  | writing msg rest =>
      exact ⟨[.write false, .proceed, .proceed],
        by simp [runList, step, act, hpresent, proceed, hp, hdone, Except.map]⟩
  | awaiting msg rest answered =>
      exact ⟨[.fail, .proceed, .proceed],
        by simp [runList, step, act, hpresent, proceed, hp, hdone, Except.map]⟩
  | failed msg rest =>
      exact ⟨[.proceed, .proceed], by simp [runList, step, act, hpresent, proceed, hp, hdone, Except.map]⟩
  | returned => exact ⟨[], by simp [runList, hp, Except.map]⟩

end ProtocolClient

/-! ## Everything can still arrive -/

namespace ProtocolClient

variable {s t : ProtocolClient}

/-- Thread, network and the other end act; nothing is submitted, and the object lives. -/
structure Serves (s t : ProtocolClient) : Prop where
  run : ∃ events, runList step events s = .ok t
  submitted_eq : t.submitted = s.submitted
  alive : t.doneFlag = false
  present : t.released = false

namespace Serves

theorem refl (hdone : s.doneFlag = false) (hpresent : s.released = false) : Serves s s :=
  ⟨⟨[], rfl⟩, rfl, hdone, hpresent⟩

theorem trans {u : ProtocolClient} (h : Serves s t) (h' : Serves t u) : Serves s u := by
  obtain ⟨events, hrun⟩ := h.run
  obtain ⟨events', hrun'⟩ := h'.run
  exact ⟨⟨events ++ events', (runList_append hrun).trans hrun'⟩, h'.submitted_eq.trans h.submitted_eq,
    h'.alive, h'.present⟩

end Serves

/-- A message is handled. -/
theorem serves_one {msg : ℕ} {rest : List ℕ} (hp : s.place = .sending msg rest)
    (hdone : s.doneFlag = false) (hpresent : s.released = false) :
    Serves s { s with place := next rest, client := true, handled := s.handled ++ [msg] } := by
  refine ⟨?_, rfl, hdone, hpresent⟩
  cases hclient : s.client with
  | true =>
      refine ⟨[.proceed, .write true, .handle, .reply], ?_⟩
      simp [runList, step, act, hpresent, proceed, call, hp, hclient]
  | false =>
      refine ⟨[.proceed, .dial true, .write true, .handle, .reply], ?_⟩
      simp [runList, step, act, hpresent, proceed, call, hp, hclient, hdone]

/-- The thread gets through what it has taken. -/
theorem serves_all (todo : List ℕ) : ∀ {s : ProtocolClient}, s.place = next todo → s.doneFlag = false →
    s.released = false → ∃ t, Serves s t ∧ t.place = .taking ∧ t.work = s.work := by
  induction todo with
  | nil => exact fun hp hdone hpresent => ⟨_, .refl hdone hpresent, hp, rfl⟩
  | cons msg rest ih =>
      intro s hp hdone hpresent
      have hone := serves_one hp hdone hpresent
      obtain ⟨t, ht, hplace, hwork⟩ := ih (s := { s with
        place := next rest, client := true, handled := s.handled ++ [msg] }) rfl hdone hpresent
      exact ⟨t, hone.trans ht, hplace, hwork⟩

/-- The thread comes to the start of a round. -/
theorem serves_round (hp : s.place ≠ .returned) (hdone : s.doneFlag = false)
    (hpresent : s.released = false) :
    ∃ t todo, Serves s t ∧ t.place = next todo ∧ t.work = s.work := by
  cases hplace : s.place with
  | taking => exact ⟨s, [], .refl hdone hpresent, hplace, rfl⟩
  | starting todo =>
      refine ⟨{ s with place := next todo }, todo, ⟨⟨[.proceed], ?_⟩, rfl, hdone, hpresent⟩, rfl, rfl⟩
      simp [runList, step, act, hpresent, proceed, hplace, hdone]
  | sending msg rest => exact ⟨s, msg :: rest, .refl hdone hpresent, hplace, rfl⟩
  | dialing msg rest =>
      refine ⟨{ s with place := next rest, client := true, handled := s.handled ++ [msg] }, rest,
        ⟨⟨[.dial true, .write true, .handle, .reply], ?_⟩, rfl, hdone, hpresent⟩, rfl, rfl⟩
      simp [runList, step, act, hpresent, call, hplace]
  | writing msg rest =>
      refine ⟨{ s with place := next rest, handled := s.handled ++ [msg] }, rest,
        ⟨⟨[.write true, .handle, .reply], ?_⟩, rfl, hdone, hpresent⟩, rfl, rfl⟩
      simp [runList, step, act, hpresent, hplace]
  | awaiting msg rest answered =>
      cases answered with
      | true =>
          refine ⟨{ s with place := next rest }, rest, ⟨⟨[.reply], ?_⟩, rfl, hdone, hpresent⟩, rfl, rfl⟩
          simp [runList, step, act, hpresent, hplace]
      | false =>
          refine ⟨{ s with place := next rest, handled := s.handled ++ [msg] }, rest,
            ⟨⟨[.handle, .reply], ?_⟩, rfl, hdone, hpresent⟩, rfl, rfl⟩
          simp [runList, step, act, hpresent, hplace]
  | failed msg rest =>
      refine ⟨{ s with place := .sending msg rest }, msg :: rest, ⟨⟨[.proceed], ?_⟩, rfl, hdone, hpresent⟩, rfl,
        rfl⟩
      simp [runList, step, act, hpresent, proceed, hplace, hdone]
  | returned => exact absurd hplace hp

/-- The thread gets through everything. -/
theorem serves_idle (hp : s.place ≠ .returned) (hdone : s.doneFlag = false)
    (hpresent : s.released = false) :
    ∃ t, Serves s t ∧ t.place = .taking ∧ t.work = [] := by
  obtain ⟨t, todo, ht, hplace, hwork⟩ := serves_round hp hdone hpresent
  obtain ⟨u, hu, hplace', hwork'⟩ := serves_all todo hplace ht.alive ht.present
  by_cases hempty : u.work = []
  · exact ⟨u, ht.trans hu, hplace', hempty⟩
  · -- one more batch
    have htake : Serves u { u with place := next u.work, work := [] } := by
      refine ⟨⟨[.proceed, .proceed], ?_⟩, rfl, hu.alive, hu.present⟩
      simp [runList, step, act, hu.present, proceed, hplace', hempty, hu.alive]
    obtain ⟨v, hv, hplace'', hwork''⟩ := serves_all u.work (s := { u with
      place := next u.work, work := [] }) rfl hu.alive hu.present
    exact ⟨v, (ht.trans hu).trans (htake.trans hv), hplace'', hwork''⟩

/-- **Messages to another replica arrive in order, and all can arrive.** In every run: nothing is handled
before everything submitted earlier was handled. While the object lives, no step calls through a null
pointer, every message that was not handled is still on its way, and from every state thread, network and
the other end can bring it about that all messages are handled. -/
theorem client_delivers (h : Reach step anyInput init s) :
    (∀ l i r, s.handled = l ++ i :: r → i < s.submitted ∧ ∀ j < i, j ∈ l) ∧
    (s.doneFlag = false → (∀ e, ∃ t, step e s = .ok t) ∧
      (∀ i < s.submitted, i ∈ s.handled ∨ i ∈ s.place.todo ∨ i ∈ s.work) ∧
      ∃ t, Serves s t ∧ ∀ i < s.submitted, i ∈ t.handled) := by
  obtain ⟨f, I⟩ := ClientInv.of_reach h
  have hpresent : s.doneFlag = false → s.released = false := fun hdone =>
    Bool.eq_false_iff.mpr fun hreleased => Bool.eq_false_iff.mp hdone (I.done hreleased)
  refine ⟨fun l i r heq => ⟨?_, I.gapless l i r heq⟩, fun hdone => ⟨fun e => ?_, fun i hi => ?_, ?_⟩⟩
  · refine (I.seen i (List.mem_append_left _ ?_)).2
    rw [heq]
    simp
  · cases hstep : step e s with
    | ok t => exact ⟨t, rfl⟩
    | error x =>
        rcases step_throws hstep with ⟨-, htold, -⟩ | ⟨-, hreleased, -⟩
        · rw [hdone] at htold
          cases htold
        · rw [hpresent hdone] at hreleased
          cases hreleased
  · obtain ⟨g, hwork, hlen, -, hg⟩ := I.work_eq
    have hfg := hg hdone
    by_cases hlow : i < f
    · exact Or.inl (I.acknowledged i hlow)
    · right
      rw [I.todo_eq, hwork, List.mem_range'_1, List.mem_range'_1]
      omega
  · obtain ⟨t, ht, hplace, hwork⟩ := serves_idle (fun hp => by simp [I.returned hp] at hdone) hdone
      (hpresent hdone)
    obtain ⟨events, hrun⟩ := ht.run
    obtain ⟨f', J⟩ := ClientInv.of_reach (h.trans (Reach.of_runList (fun _ _ => trivial) hrun))
    refine ⟨t, ht, fun i hi => J.acknowledged i ?_⟩
    obtain ⟨g, -, hlen, -, hg⟩ := J.work_eq
    have hfg := hg ht.alive
    rw [hplace] at hfg
    rw [hwork] at hlen
    have hsubmitted := ht.submitted_eq
    simp only [ClientPlace.todo, List.length_nil] at hfg hlen
    omega

/-- The first vote is handled, but its reply is lost; on a new connection both are handled. -/
def lostReply : List ClientEvent :=
  [.submit, .proceed, .submit, .proceed, .proceed, .dial true, .write true, .handle, .fail, .proceed,
    .proceed, .dial true, .write true, .handle, .reply, .proceed, .proceed, .proceed, .write true,
    .handle]

/-- The first vote is handled twice before the second one is. -/
theorem client_delivers_twice : ∃ s, Reach step anyInput init s ∧ s.handled = [0, 0, 1] ∧
    ∀ j < 1, j ∈ [0, 0] := by
  have hrun : (runList step lostReply init).map ProtocolClient.handled = .ok [0, 0, 1] := by
    decide +kernel
  obtain ⟨s, hs, hhandled⟩ := exists_of_map_ok hrun
  have hreach : Reach step anyInput init s := Reach.of_runList (fun _ _ => trivial) hs
  exact ⟨s, hreach, hhandled, ((client_delivers hreach).1 [0, 0] 1 [] hhandled).2⟩

end ProtocolClient

end Fred.Hotstuff
