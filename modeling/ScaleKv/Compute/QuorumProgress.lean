import ScaleKv.Compute.Sequencer

namespace ScaleKv
namespace Compute

open Foundation Storage Sequencer

/-!
# When the next batch can be committed

A storage node takes a batch only at the end of its own log, whereas the
sequencer moves on from a range that a quorum refused.  A node that missed a
batch is therefore behind for good: nothing ever brings it the batch again.

The cluster keeps committing exactly as long as a quorum of the nodes ends its
log where the sequencer stands.  Which calls keep that up is a condition on the
call: enough nodes that are in step and do not refuse.
-/

namespace Cluster

variable {nodes : Nat} {Image : Type}

inductive Action (nodes : Nat) (Image : Type)
  | reserve (nWrites requestId : Nat)
  | commit (requestId startLsn endLsn : Nat) (writes : List (PageId × Image))
      (refusals : Fin nodes -> Option String)

def step (encode : Image -> PageImage) (transport : Error -> String)
    (cluster : Cluster nodes Image) : Action nodes Image -> Option (Cluster nodes Image)
  | .reserve nWrites requestId =>
    some { cluster with
      sequencer := (cluster.sequencer.reserveTxnWithRequestId nWrites requestId).2 }
  | .commit requestId startLsn endLsn writes refusals =>
    (cluster.commitReservedTxnBatch encode transport requestId startLsn endLsn writes
      refusals).map Prod.snd

/-- The nodes whose log ends where the next batch starts. -/
def inStep (cluster : Cluster nodes Image) : Nat :=
  (List.finRange nodes).countP (fun node =>
    (cluster.servers node).durableLsn = cluster.sequencer.dispatchLsn)

/-- A quorum of the nodes is in step. -/
def Together (cluster : Cluster nodes Image) : Prop := cluster.sequencer.quorum ≤ cluster.inStep

/-- The request id is none that a node has answered. -/
def Fresh (cluster : Cluster nodes Image) (requestId : Nat) : Prop :=
  ∀ node, (cluster.servers node).requestIndex[requestId]? = none

instance togetherDecidable (cluster : Cluster nodes Image) : Decidable cluster.Together :=
  inferInstanceAs (Decidable (cluster.sequencer.quorum ≤ cluster.inStep))

instance freshDecidable (cluster : Cluster nodes Image) (requestId : Nat) :
    Decidable (cluster.Fresh requestId) :=
  inferInstanceAs (Decidable (∀ node, (cluster.servers node).requestIndex[requestId]? = none))

/-- If no node refuses, the next batch obtains its quorum. -/
def NextCommits (encode : Image -> PageImage) (transport : Error -> String)
    (cluster : Cluster nodes Image) : Prop :=
  ∀ requestId writes, cluster.Fresh requestId -> writes ≠ [] ->
    ∃ after, cluster.commitReservedTxnBatch encode transport requestId
      cluster.sequencer.dispatchLsn (cluster.sequencer.dispatchLsn + writes.length) writes
      (fun _ => none) = some (.ok (cluster.sequencer.dispatchLsn + writes.length), after)

/-- The node ends its log at the end of the batch afterwards: it stands at the
start, has not seen the request and does not refuse, or it stood at the end
already. -/
def keepsUp (cluster : Cluster nodes Image) (requestId endLsn : Nat)
    (refusals : Fin nodes -> Option String) (node : Fin nodes) : Bool :=
  let server := cluster.servers node
  (server.durableLsn = cluster.sequencer.dispatchLsn ∧ refusals node = none ∧
    server.requestIndex[requestId]? = none) ∨ server.durableLsn = endLsn

/-- The discipline of the calls: a batch that is dispatched fills its range and
a quorum of the nodes keeps up with it. -/
def quorumKeepsUp (cluster : Cluster nodes Image) : Action nodes Image -> Prop
  | .reserve _ _ => True
  | .commit requestId startLsn endLsn writes refusals =>
    startLsn = cluster.sequencer.dispatchLsn ->
      writes ≠ [] ∧ endLsn = startLsn + writes.length ∧
        cluster.sequencer.quorum ≤
          (List.finRange nodes).countP (cluster.keepsUp requestId endLsn refusals)

instance quorumKeepsUpDecidable (cluster : Cluster nodes Image) (action : Action nodes Image) :
    Decidable (cluster.quorumKeepsUp action) := by
  cases action <;> unfold quorumKeepsUp <;> infer_instance

end Cluster

/-! ## One node -/

theorem length_imageRecords (startLsn : Nat) (writes : List (PageId × PageImage)) :
    (imageRecords startLsn writes).length = writes.length := by
  induction writes generalizing startLsn with
  | nil => rfl
  | cons _ _ ih => simp [imageRecords, ih]

theorem numbered_imageRecords (startLsn : Nat) (writes : List (PageId × PageImage)) :
    Numbered startLsn (imageRecords startLsn writes) := by
  induction writes generalizing startLsn with
  | nil => trivial
  | cons _ _ ih => exact ⟨rfl, ih (startLsn + 1)⟩

/-- What `append_txn_batch_with_lsn_sync` says to a new request that fills its
range depends on the end of the log only. -/
theorem startTxnPhase_of_fresh {requestIndex : Std.TreeMap Nat Nat} {durableLsn requestId startLsn : Nat}
    {writes : List (PageId × PageImage)} (fresh : requestIndex[requestId]? = none)
    (nonempty : writes ≠ []) :
    startTxnPhase requestIndex durableLsn requestId startLsn (startLsn + writes.length) writes =
      if startLsn = durableLsn then .validated
      else .refused (.io .invalidInput
        s!"wal batch out of order: start_lsn={startLsn} expected_start={durableLsn}") := by
  have unknown : ¬(requestId ≠ 0 ∧ requestIndex.contains requestId) := by
    rw [Std.TreeMap.contains_eq_isSome_getElem?, fresh]
    simp
  have filled : ¬(writes.isEmpty = true) := by simpa using nonempty
  unfold startTxnPhase
  rw [if_neg unknown, if_neg filled, if_neg (by simp)]
  unfold startPhase
  by_cases same : startLsn = durableLsn
  · have valid : validateIncomingWalBatch durableLsn
        (txnBatch requestId startLsn (startLsn + writes.length) writes) = .ok () :=
      validateIncomingWalBatch_eq_ok.mpr ⟨same,
        congrArg (startLsn + ·) (length_imageRecords startLsn writes).symm,
        numbered_imageRecords startLsn writes⟩
    rw [valid, if_pos same]
  · unfold validateIncomingWalBatch
    rw [if_pos (show (txnBatch requestId startLsn _ writes).startLsn ≠ durableLsn from same),
      if_neg same]
    rfl

namespace Server

variable {Image : Type} (encode : Image -> PageImage) (transport : Error -> String)
variable {server : Server Image} {requestId startLsn endLsn : Nat} {writes : List (PageId × Image)}

section

variable (fresh : server.requestIndex[requestId]? = none) (nonempty : writes ≠ [])
  (full : endLsn = startLsn + writes.length)

include fresh nonempty full

theorem appendTxnBatch_accepts (atEnd : server.durableLsn = startLsn) :
    (server.appendTxnBatch encode transport requestId startLsn endLsn writes none).1 =
        .ok (endLsn, endLsn) ∧
      (server.appendTxnBatch encode transport requestId startLsn endLsn writes none).2.durableLsn =
        endLsn := by
  have phase := @startTxnPhase_of_fresh server.requestIndex server.durableLsn requestId startLsn
    (writes.map (fun write => (write.1, encode write.2))) fresh (by simpa using nonempty)
  rw [List.length_map, if_pos atEnd.symm, ← full] at phase
  unfold appendTxnBatch
  simp only [phase, and_self]

theorem appendTxnBatch_refuses (elsewhere : server.durableLsn ≠ startLsn) : ∃ message,
      (server.appendTxnBatch encode transport requestId startLsn endLsn writes none).1 =
        .error message := by
  have phase := @startTxnPhase_of_fresh server.requestIndex server.durableLsn requestId startLsn
    (writes.map (fun write => (write.1, encode write.2))) fresh (by simpa using nonempty)
  rw [List.length_map, if_neg (Ne.symm elsewhere), ← full] at phase
  unfold appendTxnBatch
  simp only [phase]
  exact ⟨_, rfl⟩

end

/-- A node that ends where the batch ends stays there, whatever it answers. -/
theorem appendTxnBatch_of_ahead {refusal : Option String} (ahead : server.durableLsn = endLsn) :
    (server.appendTxnBatch encode transport requestId startLsn endLsn writes refusal).2.durableLsn =
      endLsn := by
  unfold appendTxnBatch
  split
  · exact ahead
  · split
    · rfl
    · exact ahead
    · exact ahead
    · exact ahead

end Server

/-! ## All nodes -/

namespace Cluster

variable {nodes : Nat} {Image : Type} (encode : Image -> PageImage) (transport : Error -> String)
variable {cluster next : Cluster nodes Image}

variable {requestId : Nat} {writes : List (PageId × Image)}

theorem length_acksOf (fresh : cluster.Fresh requestId) (nonempty : writes ≠ []) :
    (acksOf (cluster.sequencer.dispatchLsn + writes.length) ((List.finRange nodes).map (fun node =>
        ((cluster.servers node).appendTxnBatch encode transport requestId
          cluster.sequencer.dispatchLsn (cluster.sequencer.dispatchLsn + writes.length) writes
          none).1))).length = cluster.inStep := by
  unfold acksOf inStep
  rw [List.length_filterMap_eq_countP, List.countP_map]
  apply List.countP_congr
  intro node _
  by_cases atEnd : (cluster.servers node).durableLsn = cluster.sequencer.dispatchLsn
  · have accepted := (Server.appendTxnBatch_accepts encode transport (fresh node) nonempty rfl atEnd).1
    simp [accepted, readAck, atEnd, Except.toOption]
  · rcases Server.appendTxnBatch_refuses encode transport (fresh node) nonempty rfl atEnd with
      ⟨_, refused⟩
    simp [refused, readAck, atEnd, Except.toOption]

theorem commit_ok_iff (fresh : cluster.Fresh requestId) (nonempty : writes ≠ []) :
    (∃ after, cluster.commitReservedTxnBatch encode transport requestId
      cluster.sequencer.dispatchLsn (cluster.sequencer.dispatchLsn + writes.length) writes
      (fun _ => none) = some (.ok (cluster.sequencer.dispatchLsn + writes.length), after)) <->
      cluster.Together := by
  unfold commitReservedTxnBatch Together
  rw [if_neg (lt_irrefl _), if_neg (lt_irrefl _)]
  constructor
  · rintro ⟨_, committed⟩
    have succeeded := congrArg Prod.fst (Option.some.inj committed)
    rw [← length_acksOf encode transport fresh nonempty]
    exact (finish_eq_ok.mp succeeded).1
  · intro enough
    rw [← length_acksOf encode transport fresh nonempty] at enough
    have succeeded := finish_eq_ok.mpr ⟨enough, rfl⟩
    exact ⟨_, congrArg some (Prod.ext succeeded rfl)⟩

variable {encode transport}

theorem commitReservedTxnBatch_eq_some {startLsn endLsn : Nat}
    {refusals : Fin nodes -> Option String} {result : Except Error Nat}
    (called : cluster.commitReservedTxnBatch encode transport requestId startLsn endLsn writes
      refusals = some (result, next)) :
    (startLsn < cluster.sequencer.dispatchLsn ∧ next = cluster) ∨
      (startLsn = cluster.sequencer.dispatchLsn ∧ next.sequencer.dispatchLsn = endLsn ∧
        next.sequencer.quorum = cluster.sequencer.quorum ∧
        ∀ node, next.servers node =
          ((cluster.servers node).appendTxnBatch encode transport requestId startLsn endLsn writes
            (refusals node)).2) := by
  unfold commitReservedTxnBatch at called
  dsimp only at called
  split at called
  · next stale =>
    cases called
    exact .inl ⟨stale, rfl⟩
  · next _ =>
    split at called
    · cases called
    · next _ =>
      cases called
      exact .inr ⟨by omega, finish_dispatchLsn .., finish_quorum ..,
        fun _ => rfl⟩

/-- The step lemma: calls that keep the discipline leave a quorum in step. -/
theorem together_step {action : Action nodes Image}
    (enough : cluster.Together) (disciplined : cluster.quorumKeepsUp action)
    (taken : cluster.step encode transport action = some next) :
    next.Together := by
  cases action with
  | reserve nWrites requestId =>
    cases taken
    have kept : (cluster.sequencer.reserveTxnWithRequestId nWrites requestId).2.quorum =
          cluster.sequencer.quorum ∧
        (cluster.sequencer.reserveTxnWithRequestId nWrites requestId).2.dispatchLsn =
          cluster.sequencer.dispatchLsn := by
      unfold reserveTxnWithRequestId
      split_ifs <;> exact ⟨rfl, rfl⟩
    unfold Together inStep
    rw [kept.1, kept.2]
    exact enough
  | commit =>
    rcases Option.map_eq_some_iff.mp taken with ⟨⟨_, _⟩, called, rfl⟩
    rcases commitReservedTxnBatch_eq_some called with ⟨_, unchanged⟩ | ⟨turn, atEnd, quorum, servers⟩
    · rw [unchanged]
      exact enough
    · rcases disciplined turn with ⟨nonempty, full, keeping⟩
      unfold Together inStep
      rw [quorum]
      apply le_trans keeping
      apply List.countP_mono_left
      intro node _ keeps
      rw [decide_eq_true_eq, servers node, atEnd]
      simp only [keepsUp, decide_eq_true_eq] at keeps
      rcases keeps with ⟨standing, willing, fresh⟩ | ahead
      · rw [willing]
        exact (Server.appendTxnBatch_accepts encode transport fresh nonempty full (standing.trans turn.symm)).2
      · exact Server.appendTxnBatch_of_ahead encode transport ahead

/-- As long as a quorum of the nodes keeps up with every batch, the next batch
obtains its quorum. -/
theorem next_batch_commits {start final : Cluster nodes Image}
    (together : start.Together)
    (reached : Reaches (step encode transport) quorumKeepsUp start final) :
    final.NextCommits encode transport := by
  have enough : final.Together := by
    apply reached.invariant together
    intro _ _ _ before disciplined taken
    exact together_step before disciplined taken
  intro _ _ fresh nonempty
  exact (commit_ok_iff encode transport fresh nonempty).mpr enough

/-- The sequencer that connects to new nodes. -/
def ofNewNodes (nodes quorum seed : Nat) : Cluster nodes UInt8 :=
  { sequencer := { quorum := quorum, nextLsn := 1, requestId := seed, durableLsn := 1, dispatchLsn := 1 }
    servers := fun _ => .empty }

/-- Three new nodes, of which the last one refuses the first batch. -/
theorem next_batch_commits_one_refusal :
    connect (fun _ => .empty) 2 7 = .ok (ofNewNodes 3 2 7) ∧
      ∃ final, Reaches (step .filled (fun _ => "")) quorumKeepsUp (ofNewNodes 3 2 7) final ∧
        (final.servers 2).durableLsn < final.sequencer.dispatchLsn ∧
        final.NextCommits .filled (fun _ => "") := by
  have passed : (runGuarded (step .filled (fun _ => "")) quorumKeepsUp (ofNewNodes 3 2 7)
      [.reserve 1 7, .commit 7 1 2 [(0, 5)]
        (fun node => if node = 2 then some "wal backpressure" else none)]).any
      (fun final => (final.servers 2).durableLsn < final.sequencer.dispatchLsn) = true := by
    decide +kernel
  rcases exists_reaches_of_runGuarded passed with ⟨final, reached, behind⟩
  exact ⟨rfl, final, reached, of_decide_eq_true behind, next_batch_commits (by decide) reached⟩

theorem together_of_nextCommits (image : Image) (fresh : cluster.Fresh requestId)
    (commits : cluster.NextCommits encode transport) : cluster.Together := by
  have nonempty : [((0 : PageId), image)] ≠ [] := List.cons_ne_nil _ _
  exact (commit_ok_iff encode transport fresh nonempty).mp (commits requestId _ fresh nonempty)

/-- One node that refuses one batch never takes another one. -/
theorem refused_batch_wedges :
    connect (fun _ => .empty) 1 7 = .ok (ofNewNodes 1 1 7) ∧
      ∃ final, Reaches (step .filled (fun _ => "")) anyStep (ofNewNodes 1 1 7) final ∧
        ¬final.NextCommits .filled (fun _ => "") := by
  have passed : (runGuarded (step .filled (fun _ => "")) anyStep (ofNewNodes 1 1 7)
      [.reserve 1 7, .commit 7 1 2 [(0, 5)] (fun _ => some "wal backpressure")]).any
      (fun final => final.Fresh 8 ∧ ¬final.Together) = true := by
    decide +kernel
  rcases exists_reaches_of_decide passed with ⟨final, reached, fresh, apart⟩
  exact ⟨rfl, final, reached, fun commits => apart (together_of_nextCommits 0 fresh commits)⟩

end Cluster

end Compute
end ScaleKv
