import ScaleKv.Storage.WalCodec
import ScaleKv.Storage.FailedAppends

namespace ScaleKv
namespace Storage

open Foundation PageStoreReplay List

/-!
# A log that ends within a frame

A crash may leave a part of a frame at the end of the newest segment.  The
reader stops there without an error only if not even the length word is
complete.  Nothing removes these bytes, so that the next frame is written behind
them and is not found by the reader.
-/

structure RawSegment where
  fileId : Nat
  bytes : Bytes

/-- The files of a node, with the segments as bytes. -/
structure RawDisk where
  pages : PageFile
  checkpointState : Nat
  walState : Nat
  segments : List RawSegment

namespace RawDisk

/-- The loop of `replay_wal_segments_to_store` over one file.  It returns the
batches that were read, too. -/
def replaySegment (replay : PageStoreReplay) (file : Bytes) :
    Result (PageStoreReplay × List WalBatch) :=
  match _read : WalCodec.readWalBatch file with
  | .error fault => .error fault
  | .ok none => .ok (replay, [])
  | .ok (some (batch, rest)) => do
      let applied <- batch.records.foldlM recoverRecord
        { replay with requestIndex := noteRequest replay.requestIndex batch }
      let (last, frames) <- replaySegment applied rest
      return (last, batch :: frames)
termination_by file.length
decreasing_by exact WalCodec.length_lt_of_readWalBatch _read

def replaySegments (replay : PageStoreReplay) :
    List RawSegment -> Result (PageStoreReplay × List Segment)
  | [] => .ok (replay, [])
  | segment :: rest => do
      let (current, frames) <- replaySegment replay segment.bytes
      let (last, segments) <- replaySegments current rest
      return (last, { fileId := segment.fileId, frames := frames } :: segments)

/-- `open_with_maintenance`, from the bytes of the segments.  The writer goes on
at the end of the newest file. -/
def openWithMaintenance (disk : RawDisk) : Result WalNode := do
  let store := PageStore.opened disk.pages disk.checkpointState
  let lastApplied := max disk.walState store.checkpointLsn
  let (replayed, segments) <- replaySegments
    { store := store, lastApplied := lastApplied, walState := disk.walState, requestIndex := ∅ }
    disk.segments
  let recovered := max replayed.walState lastApplied
  return {
    store := replayed.store
    walState := replayed.walState
    archived := segments.dropLast
    current := segments.getLast?.getD { fileId := 1, frames := [] }
    size := (disk.segments.getLast?.map (fun segment => segment.bytes.length)).getD 0
    durableLsn := recovered + 1
    lastApplied := recovered
    mvcc := Mvcc.ofBatches (segments.flatMap Segment.frames) }

end RawDisk

namespace Segment

def bytes (segment : Segment) : Bytes := segment.frames.flatMap WalBatch.frame

def raw (segment : Segment) : RawSegment := { fileId := segment.fileId, bytes := segment.bytes }

end Segment

/-- The newest segment has a torn frame behind its complete ones. -/
def rawSegments (torn : Bytes) : List Segment -> List RawSegment
  | [] => []
  | [newest] => [{ fileId := newest.fileId, bytes := newest.bytes ++ torn }]
  | first :: second :: rest => first.raw :: rawSegments torn (second :: rest)

def Disk.raw (disk : Disk) (torn : Bytes) : RawDisk :=
  { pages := disk.pages
    checkpointState := disk.checkpointState
    walState := disk.walState
    segments := rawSegments torn disk.segments }

namespace RawDisk

open StorageNode (survivingFrames)

/-! ## Reading the complete frames -/

variable {batch : WalBatch}

section Reading

variable {replay : PageStoreReplay} {frames : List WalBatch} {tail : Bytes}

theorem replaySegment_eq (replay : PageStoreReplay) (file : Bytes) :
    replaySegment replay file =
      match WalCodec.readWalBatch file with
      | .error fault => .error fault
      | .ok none => .ok (replay, [])
      | .ok (some (batch, rest)) => do
          let applied <- batch.records.foldlM recoverRecord
            { replay with requestIndex := noteRequest replay.requestIndex batch }
          let (last, frames) <- replaySegment applied rest
          return (last, batch :: frames) := by
  rw [replaySegment]
  split <;> next read => rw [read]

theorem replaySegment_frame (fits : batch.Fits) (replay : PageStoreReplay) (rest : Bytes) :
    replaySegment replay (batch.frame ++ rest) = (do
      let applied <- replay.recoverFrame batch
      let (last, frames) <- replaySegment applied rest
      return (last, batch :: frames)) := by
  rw [replaySegment_eq, WalCodec.readWalBatch_frame fits]
  unfold recoverFrame readWalBatch
  by_cases long : maxWalFrameLen < batch.frameLen
  · rw [if_pos long]
    rfl
  · rw [if_neg long]
    rfl

theorem replaySegment_frames (fits : ∀ frame ∈ frames, frame.Fits)
    (ended : WalCodec.readWalBatch tail = .ok none) (replay : PageStoreReplay) :
    replaySegment replay (frames.flatMap WalBatch.frame ++ tail) =
      (frames.foldlM recoverFrame replay).map (fun last => (last, frames)) := by
  induction frames generalizing replay with
  | nil =>
    rw [flatMap_nil, nil_append, replaySegment_eq, ended]
    rfl
  | cons head rest ih =>
    rw [flatMap_cons, append_assoc, replaySegment_frame (fits head mem_cons_self), foldlM_cons]
    cases replay.recoverFrame head with
    | error => rfl
    | ok applied =>
      have others := ih (forall_mem_cons.mp fits).2 applied
      simp only [bind, Except.bind] at others ⊢
      rw [others]
      cases rest.foldlM recoverFrame applied with
      | error => rfl
      | ok => rfl

variable {fault : Fault} {segments : List Segment}

theorem replaySegment_torn (fits : ∀ frame ∈ frames, frame.Fits)
    (torn : WalCodec.readWalBatch tail = .error fault) (replay : PageStoreReplay) :
    ∃ first, replaySegment replay (frames.flatMap WalBatch.frame ++ tail) = .error first := by
  induction frames generalizing replay with
  | nil =>
    rw [flatMap_nil, nil_append, replaySegment_eq, torn]
    exact ⟨fault, rfl⟩
  | cons head _ ih =>
    rw [flatMap_cons, append_assoc, replaySegment_frame (fits head mem_cons_self)]
    cases replay.recoverFrame head with
    | error first => exact ⟨first, rfl⟩
    | ok applied =>
      rcases ih (forall_mem_cons.mp fits).2 applied with ⟨first, failed⟩
      simp only [bind, Except.bind, failed]
      exact ⟨first, rfl⟩

theorem readWalBatch_short {torn : Bytes} (short : torn.length < 4) :
    WalCodec.readWalBatch torn = .ok none := if_pos short

/-- The segments of a directory whose last file has some bytes behind its
frames. -/
theorem replaySegments_raw
    (fits : ∀ frame ∈ segments.flatMap Segment.frames, frame.Fits)
    (ended : WalCodec.readWalBatch tail = .ok none) (replay : PageStoreReplay) :
    replaySegments replay (rawSegments tail segments) =
      (replay.replayWalSegmentsToStore segments).map (fun last => (last, segments)) := by
  have single {segment : Segment} {rest : Bytes}
      (own : ∀ frame ∈ segment.frames, frame.Fits)
      (isEnd : WalCodec.readWalBatch rest = .ok none) (replay : PageStoreReplay) :
      replaySegment replay (segment.bytes ++ rest) = (segment.frames.foldlM recoverFrame replay).map
          (fun last => (last, segment.frames)) := replaySegment_frames own isEnd replay
  unfold replayWalSegmentsToStore
  induction segments generalizing replay with
  | nil => rfl
  | cons head rest ih =>
    rw [flatMap_cons, forall_mem_append] at fits
    rcases fits with ⟨own, rests⟩
    have others := ih rests
    rw [foldlM_cons]
    cases rest with
    | nil =>
      simp only [rawSegments, replaySegments, single own ended, bind]
      cases head.frames.foldlM recoverFrame replay with
      | error => rfl
      | ok => rfl
    | cons second more =>
      have alone := single own (readWalBatch_short (show ([] : Bytes).length < 4 by decide)) replay
      rw [append_nil] at alone
      simp only [rawSegments, replaySegments, Segment.raw, alone, bind]
      cases head.frames.foldlM recoverFrame replay with
      | error => rfl
      | ok last =>
        simp only [Except.map, Except.bind, others]
        cases (second :: more).foldlM (fun current segment =>
          segment.frames.foldlM recoverFrame current) last with
        | error => rfl
        | ok => rfl

theorem replaySegments_torn (some : segments ≠ [])
    (fits : ∀ frame ∈ segments.flatMap Segment.frames, frame.Fits)
    (torn : WalCodec.readWalBatch tail = .error fault) (replay : PageStoreReplay) :
    ∃ first, replaySegments replay (rawSegments tail segments) = .error first := by
  induction segments generalizing replay with
  | nil => exact absurd rfl some
  | cons head rest ih =>
    rw [flatMap_cons, forall_mem_append] at fits
    cases rest with
    | nil =>
      rcases replaySegment_torn fits.1 torn replay with ⟨first, failed⟩
      change replaySegment replay (head.bytes ++ tail) = .error first at failed
      simp only [rawSegments, replaySegments, failed, bind, Except.bind]
      exact ⟨first, rfl⟩
    | cons =>
      simp only [rawSegments, replaySegments, bind]
      cases replaySegment replay head.raw.bytes with
      | error first => exact ⟨first, rfl⟩
      | ok pair =>
        rcases ih (cons_ne_nil _ _) fits.2 pair.1 with ⟨first, failed⟩
        simp only [Except.bind, failed]
        exact ⟨first, rfl⟩

theorem length_frame (batch : WalBatch) : batch.frame.length = 4 + batch.frameLen := by
  unfold WalBatch.frame
  rw [length_append, LittleEndian.length_encode, WalCodec.length_body]

theorem length_bytes (segment : Segment) : segment.bytes.length = segment.size := by
  unfold Segment.bytes Segment.size
  simp only [length_flatMap, length_frame]

theorem length_newest (some : segments ≠ []) (torn : Bytes) :
    ((rawSegments torn segments).getLast?.map (fun segment => segment.bytes.length)).getD 0 =
      (segments.getLast?.getD { fileId := 1, frames := [] }).size + torn.length := by
  induction segments with
  | nil => exact absurd rfl some
  | cons head rest ih =>
    cases rest with
    | nil =>
      change (head.bytes ++ torn).length = head.size + torn.length
      rw [length_append, length_bytes]
    | cons second more =>
      have others := ih (cons_ne_nil _ _)
      have shape : ∃ first raws, rawSegments torn (second :: more) = first :: raws := by
        cases more with
        | nil => exact ⟨_, _, rfl⟩
        | cons => exact ⟨_, _, rfl⟩
      rcases shape with ⟨_, _, shape⟩
      rw [shape] at others
      simp only [rawSegments, shape, List.getLast?_cons_cons]
      exact others

end Reading

/-- The node has been opened on a newest file with so many bytes behind its
frames. -/
def withTail (length : Nat) (node : WalNode) : WalNode := { node with size := node.size + length }

variable {disk : Disk} {torn : Bytes}

theorem openWithMaintenance_raw (some : disk.segments ≠ [])
    (fits : ∀ frame ∈ survivingFrames disk, frame.Fits) (short : torn.length < 4) :
    openWithMaintenance (disk.raw torn) =
      (WalNode.openWithMaintenance disk).map (withTail torn.length) := by
  unfold openWithMaintenance WalNode.openWithMaintenance StorageNode.openWithMaintenance
  dsimp only [Disk.raw]
  rw [replaySegments_raw fits (readWalBatch_short short), length_newest some]
  cases replayWalSegmentsToStore _ disk.segments with
  | error => rfl
  | ok => rfl

theorem openWithMaintenance_torn (some : disk.segments ≠ [])
    (fits : ∀ frame ∈ survivingFrames disk, frame.Fits)
    (batchFits : batch.Fits) (cut : torn <+: batch.frame)
    (strict : torn.length < batch.frame.length) (hasLength : 4 ≤ torn.length) (node : WalNode) :
    openWithMaintenance (disk.raw torn) ≠ .ok node := by
  intro opened
  rcases WalCodec.readWalBatch_torn batchFits cut strict hasLength with ⟨_, refused⟩
  rcases bind_eq_ok.mp opened with ⟨_, replayed, _⟩
  rcases replaySegments_torn some fits refused
    { store := PageStore.opened disk.pages disk.checkpointState
      lastApplied := max disk.walState disk.checkpointState
      walState := disk.walState
      requestIndex := ∅ } with ⟨_, failed⟩
  cases failed.symm.trans replayed

/-! ## The life after the reopening -/

/-- The batches can be encoded and read back, and no segment is removed. -/
def encodable (_node : WalNode) : WalNodeAction -> Prop
  | .appendWalBatch _ batch => batch.Fits ∧ batch.frameLen ≤ maxWalFrameLen
  | .appendFails batch _ => batch.Fits ∧ batch.frameLen ≤ maxWalFrameLen
  | .truncateWal _ => False
  | _ => True

instance encodableDecidable (node : WalNode) (action : WalNodeAction) :
    Decidable (encodable node action) := by
  unfold encodable
  induction action using WalNodeAction.casesOn <;> infer_instance

/-- All frames can be read back, and those of the flushed batches are there. -/
structure Encodes (node : WalNode) : Prop where
  fits : ∀ frame ∈ node.frames, frame.Fits ∧ frame.frameLen ≤ maxWalFrameLen
  writer : ∀ batch, node.writer = .appended batch ->
    batch.Fits ∧ batch.frameLen ≤ maxWalFrameLen
  kept : ∀ frame ∈ node.accepted, frame ∈ node.frames

section Encodes

variable {node next : WalNode}

section

variable (encodes : Encodes node)

include encodes

theorem Encodes.transfer (frames : next.frames = node.frames)
    (accepted : next.accepted = node.accepted)
    (writer : ∀ batch, next.writer = .appended batch ->
      batch.Fits ∧ batch.frameLen ≤ maxWalFrameLen) : Encodes next where
  fits := by
    rw [frames]
    exact encodes.fits
  writer := writer
  kept := by
    rw [frames, accepted]
    exact encodes.kept

theorem Encodes.grows (own : batch.Fits ∧ batch.frameLen ≤ maxWalFrameLen)
    (frames : next.frames = node.frames ++ [batch])
    (accepted : ∀ frame ∈ next.accepted, frame ∈ node.accepted ∨ frame = batch)
    (writer : ∀ other, next.writer ≠ .appended other) : Encodes next where
  fits := by
    rw [frames]
    exact forall_mem_append.mpr ⟨encodes.fits, forall_mem_singleton.mpr own⟩
  writer := fun other appended => absurd appended (writer other)
  kept := by
    rw [frames]
    intro frame member
    rcases accepted frame member with before | new
    · exact mem_append_left _ (encodes.kept frame before)
    · rw [new]
      exact mem_concat_self

theorem Encodes.fails {inFile : Bool} (own : batch.Fits ∧ batch.frameLen ≤ maxWalFrameLen)
    (frames : next.frames = (node.fail batch inFile).frames)
    (accepted : next.accepted = node.accepted) (writer : next.writer = .idle) : Encodes next := by
  have idle : ∀ other, next.writer ≠ .appended other := by
    rw [writer]
    nofun
  unfold WalNode.fail at frames
  split at frames
  · refine encodes.grows own (frames.trans (WalNode.frames_addFrame node batch)) ?_ idle
    rw [accepted]
    exact fun _ member => .inl member
  · exact encodes.transfer frames accepted (fun other appended => absurd appended (idle other))

theorem encodes_step {action : WalNodeAction}
    (guard : encodable node action) (taken : node.step action = some next) : Encodes next := by
  cases WalNode.moves_of_step taken with
  | refuses => exact encodes
  | rotates =>
    rcases node.rotateIfNeeded_eq with ⟨_, _, _, shape, sameFrames⟩
    rw [shape]
    exact encodes.transfer sameFrames rfl encodes.writer
  | appends =>
    rcases node.rotateIfNeeded_eq with ⟨_, _, _, shape, sameFrames⟩
    rw [shape]
    refine encodes.transfer sameFrames rfl ?_
    intro _ appended
    cases appended
    exact guard
  | @appendFails _ _ ready =>
    have idle := WalNode.writer_of_ready ready
    rcases node.rotateIfNeeded_eq with ⟨_, _, _, shape, sameFrames⟩
    rw [shape]
    have rotated := encodes.transfer sameFrames rfl encodes.writer
    refine rotated.fails guard rfl ?_ ?_
    · unfold WalNode.fail
      split <;> rfl
    · unfold WalNode.fail
      split <;> exact idle
  | @flushes batch writer =>
    refine encodes.grows (encodes.writer batch writer) (WalNode.frames_addFrame node batch) ?_ ?_
    · intro _ member
      rcases mem_append.mp member with before | new
      · exact .inl before
      · exact .inr (mem_singleton.mp new)
    · nofun
  | @flushFails batch _ writer =>
    refine encodes.fails (encodes.writer batch writer) rfl ?_ rfl
    unfold WalNode.fail
    split <;> rfl
  | publishes | handsOver =>
    refine encodes.transfer rfl rfl ?_
    nofun
  | truncates => exact guard.elim
  | _ => exact encodes.transfer rfl rfl encodes.writer

end

end Encodes

/-- With a cut in the length word a node opens as on the complete frames.  If
the cut leaves nothing, the frames of the next life can be read again, too. -/
theorem torn_tail_tolerated (disk : Disk) (complete : WalNode) (torn : Bytes)
    (some : disk.segments ≠ []) (fits : ∀ frame ∈ survivingFrames disk, frame.Fits)
    (opened : WalNode.openWithMaintenance disk = .ok complete) (short : torn.length < 4) :
    (openWithMaintenance (disk.raw torn) = .ok (withTail torn.length complete) ∧
      complete.frames = survivingFrames disk) ∧
    (torn = [] -> ∀ (node : WalNode) (result : Replay),
      Reaches WalNode.step encodable complete node -> node.disk.redo = .ok result ->
      ∃ reopened, openWithMaintenance (node.disk.raw []) = .ok reopened ∧
        reopened.frames = node.frames ∧
        ∀ batch ∈ node.acknowledged, batch ∈ reopened.frames) := by
  have facts := WalNode.opened_of_open opened
  refine ⟨⟨?_, facts.frames⟩, ?_⟩
  · rw [openWithMaintenance_raw some fits short, opened]
    rfl
  · intro _ node result reached redone
    have initially : Encodes complete := by
      refine ⟨?_, ?_, ?_⟩
      · intro frame member
        have listed := member
        rw [facts.frames] at listed
        exact ⟨fits frame listed, facts.readable frame member⟩
      · rw [facts.idle.2.1]
        nofun
      · rw [facts.blank.1]
        nofun
    have encodes : Encodes node :=
      reached.invariant initially (fun _ _ _ encodes guard taken => encodes_step encodes guard taken)
    have acks : WalNode.Acks node :=
      reached.invariant (WalNode.Opened.acks facts) (fun _ _ _ acks _ taken => WalNode.acks_step acks taken)
    have readable : ∀ frame ∈ survivingFrames node.disk,
        frame.frameLen ≤ maxWalFrameLen := fun frame member => (encodes.fits frame member).2
    rcases WalNode.exists_replay readable redone with ⟨_, replayed⟩
    rcases WalNode.exists_open_of_replay replayed with ⟨reopened, reopens, _⟩
    have again := (WalNode.opened_of_open reopens).frames
    refine ⟨reopened, ?_, again, ?_⟩
    · have present : node.disk.segments ≠ [] :=
        append_ne_nil_of_right_ne_nil _ (cons_ne_nil _ _)
      have allFit : ∀ frame ∈ survivingFrames node.disk, frame.Fits :=
        fun frame member => (encodes.fits frame member).1
      rw [openWithMaintenance_raw present allFit (show ([] : Bytes).length < 4 by decide), reopens]
      rfl
    · intro batch member
      rw [again]
      exact encodes.kept batch (acks.sublist.subset member)

theorem fits_imageBatch {lsn : Nat} (small : lsn < 2 ^ 32) : (WalNode.imageBatch lsn).Fits := by
  have size : (PageImage.filled 7).bytes.length = pageSize := (PageImage.filled 7).length_eq
  refine ⟨Nat.two_pow_pos 64, ?_, ?_, ?_, ?_⟩
  · change lsn < 2 ^ 64
    omega
  · change lsn + 1 < 2 ^ 64
    omega
  · intro _ member
    rw [mem_singleton.mp member]
    refine ⟨?_, rfl, ?_, Nat.two_pow_pos 16, Nat.two_pow_pos 32, ?_⟩
    · change lsn < 2 ^ 64
      omega
    · exact Nat.one_lt_two_pow (by decide)
    · change (PageImage.filled 7).bytes.length < 2 ^ 32
      rw [size]
      decide
  · unfold WalBatch.frameLen WalNode.imageBatch WalBatch.starting WalRecord.ofImage
    simp only [map_cons, map_nil, sum_cons, sum_nil, length_nil, size]
    decide

/-- A directory with one complete frame. -/
def oneFrame : Disk :=
  { pages := ∅
    checkpointState := 0
    walState := 0
    segments := [{ fileId := 1, frames := [WalNode.imageBatch 1] }] }

theorem fits_oneFrame (frame : WalBatch) (member : frame ∈ survivingFrames oneFrame) :
    frame.Fits := by
  have only : survivingFrames oneFrame = [WalNode.imageBatch 1] := rfl
  rw [only] at member
  rw [mem_singleton.mp member]
  exact fits_imageBatch (by decide)

/-- The next life appends a frame, and its call returns. -/
theorem exists_open_oneFrame : ∃ complete node,
    WalNode.openWithMaintenance oneFrame = .ok complete ∧
      Reaches WalNode.step encodable complete node ∧ node.acknowledged.length = 1 ∧
      (node.disk.redo).toOption.isSome = true := by
  have passed : (WalNode.openWithMaintenance oneFrame).toOption.any (fun complete =>
      (runGuarded WalNode.step encodable complete
        [.appendWalBatch true (WalNode.imageBatch 2), .flush, .storeDurableLsn, .handOver,
          .receiveBatch, .replayRecord, .replayPage, .updateLastApplied, .acknowledge]).any
        (fun node => node.acknowledged.length = 1 ∧ (node.disk.redo).toOption.isSome = true)) = true := by
    decide +kernel
  rcases (Option.any_eq_true _ _).mp passed with ⟨complete, opened, runs⟩
  rcases exists_reaches_of_decide runs with ⟨node, reached, acknowledged, redone⟩
  exact ⟨complete, node, ok_of_toOption opened, reached, acknowledged, redone⟩

/-- One byte of a length word behind a complete frame; without it the next life
appends another frame. -/
theorem torn_tail_tolerated_one_byte : ∃ complete node reopened,
    openWithMaintenance (oneFrame.raw [55]) = .ok (withTail 1 complete) ∧
      complete.frames = [WalNode.imageBatch 1] ∧
      Reaches WalNode.step encodable complete node ∧ node.acknowledged.length = 1 ∧
      openWithMaintenance (node.disk.raw []) = .ok reopened ∧
      ∀ batch ∈ node.acknowledged, batch ∈ reopened.frames := by
  rcases exists_open_oneFrame with ⟨complete, node, opened, reached, acknowledged, redone⟩
  rcases Option.isSome_iff_exists.mp redone with ⟨result, isResult⟩
  have tolerated := torn_tail_tolerated oneFrame complete [55] (cons_ne_nil _ _) fits_oneFrame
    opened (by decide)
  have clean := torn_tail_tolerated oneFrame complete [] (cons_ne_nil _ _) fits_oneFrame opened
    (by decide)
  rcases clean.2 rfl node result reached (ok_of_toOption isResult) with
    ⟨reopened, reopens, _, kept⟩
  exact ⟨complete, node, reopened, tolerated.1.1, tolerated.1.2, reached, acknowledged, reopens, kept⟩

/-- The length word of a frame, without its body, keeps the node from opening. -/
theorem torn_tail_refused :
    ¬ (∀ (disk : Disk) (complete : WalNode) (batch : WalBatch) (torn : Bytes),
      disk.segments ≠ [] -> (∀ frame ∈ survivingFrames disk, frame.Fits) ->
      batch.Fits -> torn <+: batch.frame -> torn.length < batch.frame.length ->
      WalNode.openWithMaintenance disk = .ok complete ->
      ∃ start, openWithMaintenance (disk.raw torn) = .ok start) := by
  intro tolerates
  rcases exists_open_oneFrame with ⟨complete, _, opened, _⟩
  have fits : (WalNode.imageBatch 2).Fits := fits_imageBatch (by decide)
  have cut : (WalNode.imageBatch 2).frame.take 4 <+: (WalNode.imageBatch 2).frame :=
    take_prefix _ _
  have four : ((WalNode.imageBatch 2).frame.take 4).length = 4 := by
    rw [length_take, length_frame]
    exact min_eq_left (Nat.le_add_right 4 _)
  have strict : ((WalNode.imageBatch 2).frame.take 4).length <
      (WalNode.imageBatch 2).frame.length := by
    rw [four, length_frame]
    unfold WalBatch.frameLen
    omega
  rcases tolerates oneFrame complete (WalNode.imageBatch 2) _ (cons_ne_nil _ _) fits_oneFrame
    fits cut strict opened with ⟨start, reopened⟩
  exact openWithMaintenance_torn (cons_ne_nil _ _) fits_oneFrame fits cut strict four.ge start
    reopened

end RawDisk

end Storage
end ScaleKv
