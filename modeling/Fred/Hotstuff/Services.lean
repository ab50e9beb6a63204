/-
# Fred.Hotstuff.Services -- the messages as remote calls

The two servers of a replica, `HotstuffProtocolServer` and `BlockFetchServer`, as services of
`Fred.Xdrpp.Rpc`. Whatever a replica sends arrives: the call of a vote or of a proposal has the other end do
what it does for that message, and a fetch returns the blocks the other end has (`sent_over_rpc`).
-/
import Fred.Hotstuff.Wire
import Fred.Xdrpp.Rpc

namespace Fred.Hotstuff

open Fred.Xdr Fred.Xdrpp Fred.Transition Replica

variable {V : Type} {E E' : Setup V} {s : Replica V}

/-- A message is handled. A handler that throws ends the process; `Arrives` is about those that return. -/
def handle (E : Setup V) (i : Input) (s : Replica V) : Replica V :=
  match step E i s with
  | .ok s' => s'
  | .error (_, s') => s'

/-- A procedure that returns nothing. -/
def voidProcedure {α : Type} (arg : Codec α) (input : α → Input) (E : Setup V) : Procedure (Replica V) :=
  ⟨α, Unit, arg, Codec.void, fun a s => ((), handle E (input a) s)⟩

/-- `HotstuffProtocolHandler::vote`. -/
def votes (E : Setup V) : Procedure (Replica V) :=
  voidProcedure Wire.voteMessage (fun v => .voteMessage v.vote v.voter) E

/-- `HotstuffProtocolHandler::propose`. -/
def proposes (E : Setup V) : Procedure (Replica V) :=
  voidProcedure Wire.proposeMessage (fun p => .proposeMessage p.proposal p.proposer) E

/-- `BlockFetchHandler::fetch`. -/
def fetches : Procedure (Replica V) :=
  ⟨List Hash, List HotstuffBlockWire, Wire.blockFetchRequest, Wire.blockFetchResponse,
    fun reqs s => (s.fetch reqs, s)⟩

/-- The procedures of `HotstuffProtocolV1`. -/
def hotstuffProcs (E : Setup V) (n : ℕ) : Option (Procedure (Replica V)) :=
  if n = 1 then some (votes E) else if n = 2 then some (proposes E) else none

theorem hotstuffProcs_lt {n : ℕ} {P : Procedure (Replica V)} (h : hotstuffProcs E n = some P) :
    n < 2 ^ 32 := by
  unfold hotstuffProcs at h
  split_ifs at h <;> omega

def hotstuffProtocol (E : Setup V) : Service (Replica V) where
  prog := 0x11111115
  vers := 1
  procs := hotstuffProcs E
  prog_lt := by decide
  vers_lt := one_lt_two_pow_32
  procs_lt := fun _ _ => hotstuffProcs_lt

/-- The procedure of `FetchBlocksV1`. -/
def fetchProcs (n : ℕ) : Option (Procedure (Replica V)) := if n = 1 then some fetches else none

theorem fetchProcs_lt {n : ℕ} {P : Procedure (Replica V)} (h : fetchProcs n = some P) : n < 2 ^ 32 := by
  unfold fetchProcs at h
  split_ifs at h
  omega

def fetchBlocks : Service (Replica V) where
  prog := 0x11111114
  vers := 1
  procs := fetchProcs
  prog_lt := by decide
  vers_lt := one_lt_two_pow_32
  procs_lt := fun _ _ => fetchProcs_lt

/-- The call of a procedure that returns nothing has the input handled, and returns, unless the handler
throws. -/
structure Arrives {α : Type} (xid : ℕ) (E : Setup V) (arg : Codec α) (proc : ℕ) (a : α) (i : Input) :
    Prop where
  call : ∀ t t', step E i t = .ok t' →
    ∃ r, (hotstuffProtocol E).receive (callMsg xid 0x11111115 1 proc arg a) t = (.replied r, t') ∧
      readReply xid Codec.void r = .ok ()

theorem arrives {α : Type} {arg : Codec α} (input : α → Input) {xid proc : ℕ} {a : α}
    (hP : (hotstuffProtocol E).procs proc = some (voidProcedure arg input E)) (hxid : xid < 2 ^ 32)
    (ha : arg.Fits a) : Arrives xid E arg proc a (input a) := by
  refine ⟨fun t t' hstep => ?_⟩
  have hcall := receive_callMsg (s := t) hP hxid ha
  have hhandled : (voidProcedure arg input E).run a t = ((), t') := by
    unfold voidProcedure handle
    simp only [hstep]
  rw [hhandled] at hcall
  have hread : readReply xid Codec.void (Rpc.successHdr xid ++ Codec.void.put ()) =
      if xid = xid then .ok () else .error .unexpectedXid := readReply_success hxid trivial xid
  rw [if_pos rfl] at hread
  exact ⟨_, hcall, hread⟩

/-- **Whatever a replica sends arrives**, in every run on messages that were decoded themselves. The calls it
makes for its proposals and its votes have any replica at the other end, in any state, do what it does for
those messages, and return if that does. A fetch from it returns the blocks it has and leaves it as it is. -/
theorem sent_over_rpc (hself : E.selfId < 2 ^ 32) (hbody : BodiesFit E)
    (h : Reach (step E) (fun _ i => i.Fits) (start E) s) {xid : ℕ} (hxid : xid < 2 ^ 32) :
    (∀ i s', i = .doPropose ∨ i = .doEmptyPropose → step E i s = .ok s' → ∀ E' : Setup V,
      Arrives xid E' Wire.proposeMessage 2 ⟨(s'.heap.get s'.bLeaf).wireBlock, E.selfId⟩
        (.proposeMessage (s'.heap.get s'.bLeaf).wireBlock E.selfId)) ∧
    (∀ p n cert target, Effect.voted p n cert target ∈ s.trace → ∀ E' : Setup V,
      Arrives xid E' Wire.voteMessage 1 ⟨cert, E.selfId⟩ (.voteMessage cert E.selfId)) ∧
    ∀ reqs, reqs.length ≤ Wire.xdrMaxLen →
      ∃ r, fetchBlocks.receive (callMsg xid 0x11111114 1 1 Wire.blockFetchRequest reqs) s =
        (.replied r, s) ∧ readReply xid Wire.blockFetchResponse r = .ok (s.fetch reqs) := by
  have D := fitting_of_reach hbody h
  refine ⟨fun i s' hi hs E' => ?_, fun _ _ cert _ _ E' => ?_, fun reqs hreqs => ?_⟩
  · have hfits := D.proposed hself hbody (wellFormed_commitLog_of_reach h).1 hi hs
    exact arrives (fun p : Wire.ProposeMessage => .proposeMessage p.proposal p.proposer) rfl hxid hfits
  · have hfits : Wire.voteMessage.Fits ⟨cert, E.selfId⟩ := Wire.fits_voteMessage.mpr hself
    exact arrives (fun v : Wire.VoteMessage => .voteMessage v.vote v.voter) rfl hxid hfits
  · have hP : fetchBlocks.procs 1 = some (fetches (V := V)) := rfl
    have hreq : Wire.blockFetchRequest.Fits reqs := ⟨hreqs, fun x _ => Wire.fits_bits 32 x⟩
    have hcall := receive_callMsg (s := s) hP hxid hreq
    have hread := readReply_success hxid (D.fetched hreqs) xid
    rw [if_pos rfl] at hread
    exact ⟨_, hcall, hread⟩

open Instance in
/-- The vote of replica 0 for its first block is handled by replica 3 when the call arrives, and replica 3 can
fetch the block. -/
theorem sent_over_rpc_four :
    (∃ t r, step (setup 4 3) (.voteMessage firstVote 0) (start (setup 4 3)) = .ok t ∧
      (hotstuffProtocol (setup 4 3)).receive (callMsg 5 0x11111115 1 1 Wire.voteMessage ⟨firstVote, 0⟩)
        (start (setup 4 3)) = (.replied r, t) ∧ readReply 5 Codec.void r = .ok ()) ∧
    ∃ (s : Replica Unit) (r : List UInt8), fetchBlocks.receive
        (callMsg 5 0x11111114 1 1 Wire.blockFetchRequest [1#256]) s = (.replied r, s) ∧
      readReply 5 Wire.blockFetchResponse r = .ok [firstBlock] := by
  have hrun : observeIf (setup 4 0) unsentCheck proposeAndVote (fun s => (s.fetch [1#256], s.trace)) =
      some ([firstBlock], [.proposed 1 1#256, .voted 1 1 firstVote 0]) := by decide +kernel
  have hstep : observe (setup 4 3) [.voteMessage firstVote 0] (fun t => t.netEvents.length) = some 1 := by
    decide +kernel
  obtain ⟨s, hreach, hrun⟩ := exists_of_observeIf fits_of_check hrun
  obtain ⟨hfetch, htrace⟩ := Prod.mk.inj hrun
  obtain ⟨-, hvotes, hserved⟩ := sent_over_rpc (E := setup 4 0) (by decide) (bodiesFit_setup 4 0) hreach
    (show 5 < 2 ^ 32 by decide)
  have hvoted : Effect.voted 1 1 firstVote 0 ∈ s.trace := by
    rw [htrace]
    exact List.mem_cons_of_mem _ (List.mem_singleton.mpr rfl)
  refine ⟨?_, s, hfetch ▸ hserved [1#256] (by decide)⟩
  cases ht : step (setup 4 3) (.voteMessage firstVote 0) (start (setup 4 3)) with
  | error e =>
      simp only [observe, Transition.runList, ht] at hstep
      cases hstep
  | ok t =>
      obtain ⟨r, hcall, hread⟩ := (hvotes 1 1 firstVote 0 hvoted (setup 4 3)).call _ t ht
      exact ⟨t, r, rfl, hcall, hread⟩

end Fred.Hotstuff
