import ScaleKv.TxnKv.LogReplay

namespace ScaleKv
namespace TxnKv

open Foundation List QuorumStorage Option

/-!
# Opening several replicas

The open replays every replica on its own and keeps the result with the largest
counter, the first of them in a tie.  A replica whose snapshot cannot be read ends
the second loop over the replicas, whatever the others hold.
-/

section Foremost

variable {replicas : Nat} {counters : Fin replicas -> Nat}

/-- The first index with the largest counter. -/
structure Foremost (counters : Fin replicas -> Nat) (replica : Fin replicas) : Prop where
  newest : ∀ other, counters other ≤ counters replica
  first : ∀ other, other < replica -> counters other < counters replica

theorem foremost_iff (replica : Fin replicas) :
    Foremost counters replica <-> replica ∈ (List.finRange replicas).argmax counters := by
  simp only [mem_argmax_iff, mem_finRange, true_and, forall_const, idxOf_finRange, Fin.val_fin_le]
  constructor
  · intro foremost
    refine ⟨foremost.newest, ?_⟩
    intro other newest
    by_contra before
    exact absurd newest (not_le.mpr (foremost.first other (not_le.mp before)))
  · rintro ⟨newest, first⟩
    refine ⟨newest, ?_⟩
    intro other before
    by_contra notNewer
    exact absurd (first other (not_lt.mp notNewer)) (not_le.mpr before)

theorem exists_foremost (counters : Fin replicas -> Nat) (some : 0 < replicas) :
    ∃ replica, Foremost counters replica := by
  cases chosen : (List.finRange replicas).argmax counters with
  | none =>
    rw [argmax_eq_none, finRange_eq_nil_iff] at chosen
    omega
  | some replica => exact ⟨replica, (foremost_iff replica).mpr chosen⟩

end Foremost

variable {replicas : Nat}

/-- The loop over the replicas computes the first argument of the maximum. -/
theorem foldl_newer_map (results : Fin replicas -> Store × Nat) (indices : List (Fin replicas))
    (best : Option (Fin replicas)) :
    (indices.map results).foldl newer (best.map results) =
      (indices.foldl (List.argAux (fun later earlier => (results earlier).2 < (results later).2))
        best).map results := by
  induction indices generalizing best with
  | nil => rfl
  | cons head tail ih =>
    rw [map_cons, foldl_cons, foldl_cons, ← ih]
    congr 1
    cases best with
    | none => rfl
    | some =>
      simp only [map_some, newer, List.argAux]
      split <;> rfl

/-- The file can be opened, and this is what its snapshot and its log say. -/
structure Readable (files : ReplicaFiles) (snapshot : Option (Store × Nat)) (wal : List WalRecord) : Prop where
  opened : files.opened = .ok ()
  loaded : files.snapshot = .ok snapshot
  read : files.wal = .ok wal

/-- The store and the counter of one readable replica. -/
def recoveredFrom (snapshot : Option (Store × Nat)) (wal : List WalRecord) : Store × Nat :=
  replayWalWithBase wal (snapshot.getD (∅, 0)).1 (snapshot.getD (∅, 0)).2

variable {files file : ReplicaFiles} {snapshot : Option (Store × Nat)} {wal : List WalRecord}
  {all : List ReplicaFiles} {error : TxnError}

theorem replayWalFrom_readable (readable : Readable files snapshot wal)
    (progress : QuorumStorage.Progress) :
    replayWalFrom progress files =
      .ok { progress with best := newer progress.best (recoveredFrom snapshot wal) } := by
  unfold replayWalFrom
  rw [readable.opened]
  rw [readable.loaded, readable.read]
  rfl

section Open

variable {files : Fin replicas -> ReplicaFiles}
variable {snapshots : Fin replicas -> Option (Store × Nat)} {wals : Fin replicas -> List WalRecord}

section

variable (readable : ∀ replica, Readable (files replica) (snapshots replica) (wals replica))

include readable

theorem foldlM_replayWalFrom (indices : List (Fin replicas)) (progress : QuorumStorage.Progress) :
    (indices.map files).foldlM replayWalFrom progress =
      .ok { progress with
        best := (indices.map (fun replica => recoveredFrom (snapshots replica) (wals replica))).foldl
          newer progress.best } := by
  induction indices generalizing progress with
  | nil => rfl
  | cons head tail ih =>
    rw [map_cons, foldlM_cons, replayWalFrom_readable (readable head)]
    exact ih _

omit readable in
theorem loadSnapshot_isOk (quorum : Nat) (member : file ∈ all) (opened : file.opened = .ok ())
    (loaded : file.snapshot = .ok snapshot) : ∃ best, loadSnapshot quorum all = .ok best := by
  have keeps : ∀ (rest : List ReplicaFiles) (progress : QuorumStorage.Progress), progress.sawOk = true ->
      (rest.foldl loadSnapshotFrom progress).sawOk = true := by
    intro rest
    induction rest with
    | nil => exact fun _ seen => seen
    | cons head tail ih =>
      intro progress seen
      rw [foldl_cons]
      refine ih _ ?_
      unfold loadSnapshotFrom
      split
      · exact seen
      · split
        · exact seen
        · rfl
        · rfl
  have saw : (all.foldl loadSnapshotFrom .start).sawOk = true := by
    rcases append_of_mem member with ⟨_, after, rfl⟩
    rw [foldl_append, foldl_cons]
    refine keeps after _ ?_
    unfold loadSnapshotFrom
    rw [opened]
    rw [loaded]
    cases snapshot <;> rfl
  unfold loadSnapshot
  dsimp only
  rw [saw]
  split
  · exact ⟨_, rfl⟩
  · exact ⟨none, rfl⟩

theorem openQuorum_readable
    {quorum : Nat} (positive : 0 < quorum) (enough : quorum ≤ replicas) {replica : Fin replicas}
    (foremost : Foremost (fun index => (recoveredFrom (snapshots index) (wals index)).2) replica) :
    openQuorum quorum ((List.finRange replicas).map files) =
      .ok (openedWith (snapshots replica) (wals replica)) := by
  have length_eq : ((List.finRange replicas).map files).length = replicas := by simp
  have best : ((List.finRange replicas).map (fun index => recoveredFrom (snapshots index) (wals index))).foldl
      newer none = some (recoveredFrom (snapshots replica) (wals replica)) := by
    have mapped := foldl_newer_map (fun index => recoveredFrom (snapshots index) (wals index))
      (List.finRange replicas) none
    rw [map_none] at mapped
    rw [mapped]
    exact map_eq_some_iff.mpr ⟨replica, (foremost_iff replica).mp foremost, rfl⟩
  rcases loadSnapshot_isOk quorum (mem_map.mpr ⟨replica, mem_finRange replica, rfl⟩)
    (readable replica).opened (readable replica).loaded with ⟨_, loads⟩
  unfold openQuorum
  rw [if_neg (by omega), loads]
  unfold replayWal
  rw [foldlM_replayWalFrom readable]
  simp only [bind, Except.bind, QuorumStorage.Progress.start, best]
  rfl

end

end Open

theorem openQuorum_single (readable : Readable files snapshot wal) :
    openQuorum 1 [files] = .ok (openedWith snapshot wal) := by
  have foremost : Foremost (fun _ : Fin 1 => (recoveredFrom snapshot wal).2) 0 :=
    ⟨fun _ => le_rfl, fun _ before => absurd before (Fin.not_lt_zero _)⟩
  exact openQuorum_readable (fun _ : Fin 1 => readable) Nat.one_pos (le_refl 1) foremost

theorem foldlM_replayWalFrom_error (member : file ∈ all) (opened : file.opened = .ok ())
    (unreadable : file.snapshot = .error error) (progress : QuorumStorage.Progress) :
    ∃ fault, all.foldlM replayWalFrom progress = .error fault := by
  induction all generalizing progress with
  | nil => cases member
  | cons head tail ih =>
    rw [foldlM_cons]
    rcases mem_cons.mp member with rfl | inTail
    · refine ⟨error, ?_⟩
      unfold replayWalFrom
      rw [opened]
      rw [unreadable]
      rfl
    · cases replayWalFrom progress head with
      | error fault => exact ⟨fault, rfl⟩
      | ok later => exact ih inTail later

theorem openQuorum_unreadable {quorum : Nat} (member : file ∈ all) (opened : file.opened = .ok ())
    (unreadable : file.snapshot = .error error) (state : State) :
    openQuorum quorum all ≠ .ok state := by
  rcases foldlM_replayWalFrom_error member opened unreadable .start with ⟨_, stops⟩
  intro isOpened
  unfold openQuorum replayWal at isOpened
  rw [stops] at isOpened
  split at isOpened
  · cases isOpened
  · cases loaded : loadSnapshot quorum all with
    | error =>
      rw [loaded] at isOpened
      cases isOpened
    | ok =>
      rw [loaded] at isOpened
      cases isOpened

end TxnKv
end ScaleKv
