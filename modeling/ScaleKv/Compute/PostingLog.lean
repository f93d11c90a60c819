import ScaleKv.Compute.SecondaryIndex
import ScaleKv.Foundation.Ascending

namespace ScaleKv
namespace Compute

open Foundation List OrderedMap

/-!
# The replay of the posting log

A record of the log carries the name of its index and nothing else of it.  If an
index is dropped and its name is used again, the replay applies the records of
the old index to the new one.  What an index lists is compared with what the log
lists under its name: the last record about a pair of keys decides.
-/

/-- The record is about the pair of keys in the index of that name. -/
abbrev PostingRecord.About (record : PostingRecord) (name : String) (secondaryKey : Bytes)
    (primaryKey : Key) : Prop :=
  record.mutation.indexName = name ∧ record.mutation.secondaryKey = secondaryKey ∧
    record.mutation.primaryKey = primaryKey

section Listed

variable {name : String} {secondaryKey : Bytes} {primaryKey : Key} {records : List PostingRecord}

/-- Whether a pair of keys is listed after the records, given whether it was before. -/
def listedAfter (name : String) (secondaryKey : Bytes) (primaryKey : Key) (before : Bool)
    (records : List PostingRecord) : Bool :=
  records.foldl (fun listed record =>
    if record.About name secondaryKey primaryKey then record.mutation.present else listed) before

/-- The last record about the pair decides. -/
theorem listedAfter_eq (before : Bool) (records : List PostingRecord) :
    listedAfter name secondaryKey primaryKey before records =
      (records.filter (fun record => record.About name secondaryKey primaryKey)).getLast?.elim before
        (fun record => record.mutation.present) := by
  induction records using List.reverseRecOn with
  | nil => rfl
  | append_singleton _ last ih =>
    unfold listedAfter at ih ⊢
    rw [foldl_append, foldl_cons, foldl_nil, ih, filter_append]
    by_cases about : last.About name secondaryKey primaryKey
    · rw [if_pos about, filter_cons_of_pos (by simpa using about), filter_nil,
        List.getLast?_concat, Option.elim_some]
    · rw [if_neg about, filter_cons_of_neg (by simpa using about), filter_nil, append_nil]

theorem listedAfter_eq_of_mem {record : PostingRecord} (member : record ∈ records)
    (about : record.About name secondaryKey primaryKey) (before other : Bool) :
    listedAfter name secondaryKey primaryKey before records =
      listedAfter name secondaryKey primaryKey other records := by
  rw [listedAfter_eq, listedAfter_eq, List.getLast?_eq_some_getLast
    (ne_nil_of_mem (mem_filter.mpr ⟨member, decide_eq_true about⟩))]
  rfl

theorem listedAfter_of_none {before : Bool}
    (none : ∀ record ∈ records, ¬record.About name secondaryKey primaryKey) :
    listedAfter name secondaryKey primaryKey before records = before := by
  rw [listedAfter_eq, filter_eq_nil_iff.mpr (by simpa using none)]
  rfl

end Listed

theorem listedAfter_append (name : String) (secondaryKey : Bytes) (primaryKey : Key) (before : Bool)
    (earlier later : List PostingRecord) :
    listedAfter name secondaryKey primaryKey before (earlier ++ later) =
      listedAfter name secondaryKey primaryKey (listedAfter name secondaryKey primaryKey before earlier) later :=
  foldl_append

def PostingLog.lists (log : PostingLog) (name : String) (secondaryKey : Bytes) (primaryKey : Key) : Bool :=
  listedAfter name secondaryKey primaryKey false log

variable {log : PostingLog} {commitLsn readLsn : Nat} {mutations : List Mutation} {name : String}
  {indexes : Indexes}

theorem exists_of_lists {secondaryKey : Bytes} {primaryKey : Key}
    (listed : log.lists name secondaryKey primaryKey = true) :
    ∃ record ∈ log, record.About name secondaryKey primaryKey := by
  by_contra none
  rw [not_exists] at none
  unfold PostingLog.lists at listed
  rw [listedAfter_of_none (fun record member about => none record ⟨member, about⟩)] at listed
  cases listed

theorem append_eq_ok {grown : PostingLog}
    (appended : (log.append commitLsn mutations).toOption = some grown) :
    grown = log ++ mutations.map (PostingRecord.mk commitLsn) := by
  dsimp only [PostingLog.append] at appended
  cases checked : (mutations.map (PostingRecord.mk commitLsn)).forM PostingRecord.check with
  | error =>
    rw [checked] at appended
    cases appended
  | ok =>
    rw [checked] at appended
    cases appended
    rfl

namespace SecondaryIndex

variable {index : SecondaryIndex} {secondaryKey : Bytes} {primaryKey : Key}

def lists (index : SecondaryIndex) (secondaryKey : Bytes) (primaryKey : Key) : Bool :=
  (index.versions secondaryKey primaryKey).getLast?.any PostingVersion.present

/-- No posting is newer than the bound. -/
def UpTo (index : SecondaryIndex) (bound : Nat) : Prop :=
  ∀ secondaryKey primaryKey version, version ∈ index.versions secondaryKey primaryKey ->
    version.commitLsn ≤ bound

theorem versions_empty (valueOffset valueLen : Nat) (secondaryKey : Bytes) (primaryKey : Key) :
    (⟨valueOffset, valueLen, ∅⟩ : SecondaryIndex).versions secondaryKey primaryKey = [] := by
  unfold versions
  rw [Std.TreeMap.getElem?_emptyc, Option.getD_none, Std.TreeMap.getElem?_emptyc]
  rfl

theorem lists_empty (valueOffset valueLen : Nat) (secondaryKey : Bytes) (primaryKey : Key) :
    (⟨valueOffset, valueLen, ∅⟩ : SecondaryIndex).lists secondaryKey primaryKey = false := by
  rw [lists, versions_empty]
  rfl

theorem upTo_empty (valueOffset valueLen bound : Nat) :
    (⟨valueOffset, valueLen, ∅⟩ : SecondaryIndex).UpTo bound := by
  intro _ _ _ member
  rw [versions_empty] at member
  cases member

theorem record_versions (index : SecondaryIndex) (commitLsn : Nat) (mutation : Mutation)
    (secondaryKey : Bytes) (primaryKey : Key) :
    (index.record commitLsn mutation).versions secondaryKey primaryKey =
      if mutation.secondaryKey = secondaryKey ∧ mutation.primaryKey = primaryKey then
        push (index.versions secondaryKey primaryKey) commitLsn mutation.present
      else index.versions secondaryKey primaryKey := by
  show (((index.postings.insert mutation.secondaryKey _)[secondaryKey]?.getD ∅)[primaryKey]?).getD [] = _
  rw [lookup_insert]
  by_cases sameSecondary : mutation.secondaryKey = secondaryKey
  · subst sameSecondary
    rw [if_pos rfl, Option.getD_some, lookup_insert]
    by_cases samePrimary : mutation.primaryKey = primaryKey
    · subst samePrimary
      rw [if_pos rfl, if_pos ⟨rfl, rfl⟩, Option.getD_some]
    · rw [if_neg samePrimary, if_neg (fun both => samePrimary both.2)]
      rfl
  · rw [if_neg sameSecondary, if_neg (fun both => sameSecondary both.1)]
    rfl

theorem push_eq (history : List PostingVersion) (commitLsn : Nat) (present : Bool) :
    ∃ older, push history commitLsn present = older ++ [⟨commitLsn, present⟩] ∧
      ∀ version ∈ older, version ∈ history := by
  unfold push
  cases newest : history.getLast? with
  | none => exact ⟨[], rfl, nofun⟩
  | some =>
    dsimp only
    split
    · next same =>
      exact ⟨history.dropLast, by rw [same], fun version member => (dropLast_sublist _).subset member⟩
    · exact ⟨history, rfl, fun version member => member⟩

theorem lists_record (commitLsn : Nat) (mutation : Mutation) :
    (index.record commitLsn mutation).lists secondaryKey primaryKey =
      if mutation.secondaryKey = secondaryKey ∧ mutation.primaryKey = primaryKey then mutation.present
      else index.lists secondaryKey primaryKey := by
  unfold lists
  rw [record_versions]
  split
  · rcases push_eq (index.versions secondaryKey primaryKey) commitLsn mutation.present with
      ⟨_, pushed, _⟩
    rw [pushed, List.getLast?_concat, Option.any_some]
  · rfl

variable {bound : Nat} {records : List PostingRecord}

theorem UpTo.record (upTo : index.UpTo bound) (covered : commitLsn ≤ bound)
    (mutation : Mutation) : (index.record commitLsn mutation).UpTo bound := by
  intro secondaryKey primaryKey version member
  rw [record_versions] at member
  split at member
  · rcases push_eq (index.versions secondaryKey primaryKey) commitLsn mutation.present with
      ⟨_, pushed, kept⟩
    rw [pushed] at member
    rcases mem_append.mp member with before | isNew
    · exact upTo secondaryKey primaryKey version (kept version before)
    · rw [mem_singleton.mp isNew]
      exact covered
  · exact upTo secondaryKey primaryKey version member

theorem visibleMembership_append {front back : List PostingVersion}
    (covered : ∀ version ∈ front, version.commitLsn ≤ readLsn)
    (newer : ∀ version ∈ back, readLsn < version.commitLsn) :
    visibleMembership (front ++ back) readLsn = front.getLast?.any PostingVersion.present := by
  have goesRight : (fun position => (front ++ back)[position]?.any
      (fun version => decide (version.commitLsn ≤ readLsn))) =
        fun position => decide (position < front.length) := by
    funext position
    by_cases inFront : position < front.length
    · rw [getElem?_append_left inFront, List.getElem?_eq_getElem inFront]
      simp [covered _ (getElem_mem inFront), inFront]
    · rw [getElem?_append_right (not_lt.mp inFront)]
      cases found : back[position - front.length]? with
      | none => simp [inFront]
      | some version => simp [inFront, newer version (mem_of_getElem? found)]
  unfold visibleMembership
  rw [goesRight, BinarySearch.partitionPoint_lt (by simp)]
  rcases eq_nil_or_concat' front with rfl | ⟨_, _, rfl⟩
  · rfl
  · simp

theorem visibleMembership_of_upTo (upTo : index.UpTo bound) :
    visibleMembership (index.versions secondaryKey primaryKey) bound =
      index.lists secondaryKey primaryKey := by
  rw [← append_nil (index.versions secondaryKey primaryKey),
    visibleMembership_append (upTo secondaryKey primaryKey) (by simp)]
  rfl

theorem push_append {front : List PostingVersion}
    (older : ∀ version ∈ front, version.commitLsn < commitLsn)
    (back : List PostingVersion) (present : Bool) :
    push (front ++ back) commitLsn present = front ++ push back commitLsn present := by
  unfold push
  rcases eq_nil_or_concat' back with rfl | ⟨_, last, rfl⟩
  · rw [append_nil]
    cases newest : front.getLast? with
    | none => rw [List.getLast?_eq_none_iff.mp newest]; rfl
    | some last => exact if_neg (older last (mem_of_getLast? newest)).ne
  · rw [← append_assoc, List.getLast?_concat, List.getLast?_concat]
    dsimp only
    split
    · rw [dropLast_concat, dropLast_concat, append_assoc]
    · simp only [append_assoc]

/-- The index after the records that name it. -/
def replay (name : String) (index : SecondaryIndex) (records : List PostingRecord) : SecondaryIndex :=
  records.foldl (fun current record =>
    if record.mutation.indexName = name then current.record record.commitLsn record.mutation
    else current) index

theorem replay_append (name : String) (index : SecondaryIndex) (earlier later : List PostingRecord) :
    index.replay name (earlier ++ later) = (index.replay name earlier).replay name later :=
  foldl_append

theorem lists_replay (name : String) (index : SecondaryIndex) (records : List PostingRecord) :
    (index.replay name records).lists secondaryKey primaryKey =
      listedAfter name secondaryKey primaryKey (index.lists secondaryKey primaryKey) records := by
  induction records generalizing index with
  | nil => rfl
  | cons first _ ih =>
    refine (ih _).trans ?_
    unfold listedAfter
    rw [foldl_cons]
    congr 1
    dsimp only
    by_cases named : first.mutation.indexName = name
    · rw [if_pos named, lists_record]
      simp only [PostingRecord.About, named, true_and]
    · rw [if_neg named, if_neg (fun about => named about.1)]

theorem UpTo.replay (upTo : index.UpTo bound)
    (covered : ∀ record ∈ records, record.commitLsn ≤ bound) (name : String) :
    (index.replay name records).UpTo bound := by
  induction records generalizing index with
  | nil => exact upTo
  | cons first _ ih =>
    refine ih ?_ (fun record member => covered record (mem_cons_of_mem _ member))
    dsimp only
    split
    · exact upTo.record (covered first mem_cons_self) _
    · exact upTo

/-- Records behind a snapshot add postings that it does not see. -/
theorem versions_replay_newer (upTo : index.UpTo bound)
    (newer : ∀ record ∈ records, bound < record.commitLsn) (name : String)
    (secondaryKey : Bytes) (primaryKey : Key) :
    ∃ back, (index.replay name records).versions secondaryKey primaryKey =
      index.versions secondaryKey primaryKey ++ back ∧
        ∀ version ∈ back, bound < version.commitLsn := by
  induction records using List.reverseRecOn with
  | nil => exact ⟨[], (append_nil _).symm, by simp⟩
  | append_singleton _ last ih =>
    rw [forall_mem_append, forall_mem_singleton] at newer
    rcases ih newer.1 with ⟨back, grown, behind⟩
    unfold SecondaryIndex.replay at grown ⊢
    rw [foldl_append, foldl_cons, foldl_nil]
    split
    · rw [record_versions, grown]
      split
      · rw [push_append (fun version member =>
          (upTo secondaryKey primaryKey version member).trans_lt newer.2)]
        refine ⟨_, rfl, ?_⟩
        rcases push_eq back last.commitLsn last.mutation.present with ⟨_, pushed, kept⟩
        rw [pushed, forall_mem_append, forall_mem_singleton]
        exact ⟨fun version member => behind version (kept version member), newer.2⟩
      · exact ⟨back, rfl, behind⟩
    · exact ⟨back, grown, behind⟩

end SecondaryIndex

namespace Indexes

open SecondaryIndex

theorem lookup_replay (indexes : Indexes) (records : List PostingRecord) (name : String) :
    (indexes.replay records)[name]? = indexes[name]?.map (fun index => index.replay name records) := by
  induction records generalizing indexes with
  | nil => exact Option.map_id'.symm
  | cons first _ ih =>
    refine (ih _).trans ?_
    have step : (indexes.applyCommit first.commitLsn [first.mutation])[name]? =
        indexes[name]?.map (fun index => if first.mutation.indexName = name then
          index.record first.commitLsn first.mutation else index) := by
      unfold applyCommit
      rw [foldl_cons, foldl_nil]
      by_cases named : first.mutation.indexName = name
      · subst named
        cases found : indexes[first.mutation.indexName]? with
        | none => exact found
        | some =>
          rw [lookup_insert, if_pos rfl, Option.map_some, if_pos rfl]
      · simp only [if_neg named, Option.map_id']
        split
        · rfl
        · exact lookup_insert_of_ne _ _ named
    rw [step, Option.map_map]
    rfl

theorem applyCommit_eq_replay (indexes : Indexes) (commitLsn : Nat) (mutations : List Mutation) :
    indexes.applyCommit commitLsn mutations =
      indexes.replay (mutations.map (PostingRecord.mk commitLsn)) := by
  unfold replay
  rw [foldl_map]
  rfl

theorem queryEqual_spec {index : SecondaryIndex}
    (found : indexes[name]? = some index) (secondaryKey : Bytes) (readLsn limit : Nat) :
    ∃ keys : List Key, keys.Pairwise (fun left right => left < right) ∧
      (∀ primaryKey, primaryKey ∈ keys <->
        visibleMembership (index.versions secondaryKey primaryKey) readLsn = true) ∧
      indexes.queryEqual name secondaryKey readLsn limit =
        if isizeMax < limit * keySize then .error .panicked else .ok (keys.take limit) := by
  refine ⟨((index.postings[secondaryKey]?.getD ∅).toList.filter
    (fun entry => visibleMembership entry.2 readLsn)).map Prod.fst, ?_, ?_, ?_⟩
  · exact pairwise_map.mpr ((Std.TreeMap.ordered_keys_toList.imp
      (fun below => compare_lt_iff_lt.mp below)).filter _)
  · intro primaryKey
    unfold versions
    constructor
    · intro member
      rcases mem_map.mp member with ⟨_, inside, rfl⟩
      rcases mem_filter.mp inside with ⟨stored, isVisible⟩
      rw [Std.TreeMap.mem_toList_iff_getElem?_eq_some.mp stored]
      exact isVisible
    · intro isVisible
      cases stored : (index.postings[secondaryKey]?.getD ∅)[primaryKey]? with
      | none =>
        rw [stored] at isVisible
        cases isVisible
      | some versions =>
        rw [stored] at isVisible
        exact mem_map.mpr ⟨(primaryKey, versions), mem_filter.mpr
          ⟨Std.TreeMap.mem_toList_iff_getElem?_eq_some.mpr stored, isVisible⟩, rfl⟩
  · unfold queryEqual
    rw [found]
    split
    · next none => rw [none, take_zero, if_neg (by simp)]
    · rfl

theorem queryEqual_eq {left right : Indexes} {first second : SecondaryIndex}
    (isFirst : left[name]? = some first) (isSecond : right[name]? = some second)
    (firstUpTo : first.UpTo readLsn) (secondUpTo : second.UpTo readLsn)
    (same : ∀ secondaryKey primaryKey,
      first.lists secondaryKey primaryKey = second.lists secondaryKey primaryKey)
    (secondaryKey : Bytes) (limit : Nat) :
    left.queryEqual name secondaryKey readLsn limit = right.queryEqual name secondaryKey readLsn limit := by
  rcases queryEqual_spec isFirst secondaryKey readLsn limit with ⟨_, ascending, members, answer⟩
  rcases queryEqual_spec isSecond secondaryKey readLsn limit with ⟨_, ascends, isMember, answers⟩
  rw [answer, answers, ascending.eq_of_mem_iff ascends]
  intro primaryKey
  rw [members, isMember, visibleMembership_of_upTo firstUpTo, visibleMembership_of_upTo secondUpTo, same]

/-! ## The history of mutations -/

/-- A sequence of commits, each with its LSN. -/
def applyCommits (indexes : Indexes) (commits : List (Nat × List Mutation)) : Indexes :=
  commits.foldl (fun current commit => current.applyCommit commit.1 commit.2) indexes

/-- The last mutation of the pair of keys in the commits up to an LSN. -/
def lastMutation (commits : List (Nat × List Mutation)) (readLsn : Nat) (name : String)
    (secondaryKey : Bytes) (primaryKey : Key) : Option Mutation :=
  (((commits.filter (fun commit => commit.1 ≤ readLsn)).flatMap Prod.snd).filter (fun mutation =>
    mutation.indexName = name ∧ mutation.secondaryKey = secondaryKey ∧
      mutation.primaryKey = primaryKey)).getLast?

def recordsOf (commits : List (Nat × List Mutation)) : List PostingRecord :=
  commits.flatMap (fun commit => commit.2.map (PostingRecord.mk commit.1))

variable {commits : List (Nat × List Mutation)}

theorem applyCommits_eq_replay (indexes : Indexes) :
    indexes.applyCommits commits = indexes.replay (recordsOf commits) := by
  induction commits generalizing indexes with
  | nil => rfl
  | cons _ _ ih =>
    refine (ih _).trans ?_
    dsimp only
    rw [applyCommit_eq_replay]
    exact foldl_append.symm

theorem listedAfter_recordsOf (name : String) (secondaryKey : Bytes) (primaryKey : Key) (readLsn : Nat) :
    listedAfter name secondaryKey primaryKey false
        (recordsOf (commits.filter (fun commit => commit.1 ≤ readLsn))) =
      (lastMutation commits readLsn name secondaryKey primaryKey).any Mutation.present := by
  unfold lastMutation
  generalize commits.filter (fun commit => decide (commit.1 ≤ readLsn)) = seen
  have mutations : seen.flatMap Prod.snd = (recordsOf seen).map PostingRecord.mutation := by
    simp [recordsOf, map_flatMap, Function.comp_def]
  rw [listedAfter_eq, mutations, filter_map, List.getLast?_map]
  change _ = Option.any _ (Option.map _ ((recordsOf seen).filter
    (fun record => record.About name secondaryKey primaryKey)).getLast?)
  cases ((recordsOf seen).filter (fun record => record.About name secondaryKey primaryKey)).getLast? <;> rfl

/-- The answer of a query holds, in their order, the first keys that the last
mutation up to its LSN has put in. -/
def AnswersFrom (indexes : Indexes) (commits : List (Nat × List Mutation)) (name : String)
    (secondaryKey : Bytes) (readLsn limit : Nat) : Prop :=
  ∃ keys : List Key, keys.Pairwise (fun left right => left < right) ∧
    (∀ primaryKey, primaryKey ∈ keys <->
      (lastMutation commits readLsn name secondaryKey primaryKey).any Mutation.present = true) ∧
    (indexes.applyCommits commits).queryEqual name secondaryKey readLsn limit = .ok (keys.take limit)

/-- A query answers from the history exactly if a vector can have room for its
limit; else it panics. -/
theorem queryEqual_commits {indexes : Indexes} {name : String} {valueOffset valueLen : Nat}
    (created : indexes[name]? = some ⟨valueOffset, valueLen, ∅⟩)
    (ordered : commits.Pairwise (fun earlier later => earlier.1 ≤ later.1))
    (secondaryKey : Bytes) (readLsn limit : Nat) :
    indexes.AnswersFrom commits name secondaryKey readLsn limit <-> limit * keySize ≤ isizeMax := by
  have kept (keeps : Nat -> Prop) [DecidablePred keeps] :
      ∀ record ∈ recordsOf (commits.filter (fun commit => keeps commit.1)), keeps record.commitLsn := by
    simp only [recordsOf, mem_flatMap, mem_filter, mem_map, decide_eq_true_eq]
    rintro _ ⟨_, ⟨_, keep⟩, _, _, rfl⟩
    exact keep
  have found := lookup_replay indexes (recordsOf commits) name
  rw [created, Option.map_some] at found
  rcases queryEqual_spec found secondaryKey readLsn limit with ⟨keys, ascending, members, answer⟩
  unfold AnswersFrom
  rw [applyCommits_eq_replay, answer]
  constructor
  · rintro ⟨_, _, _, returned⟩
    split at returned
    · cases returned
    · next fits => exact not_lt.mp fits
  · intro fits
    rw [if_neg (not_lt.mpr fits)]
    refine ⟨keys, ascending, fun primaryKey => (members primaryKey).trans ?_, rfl⟩
    have split : recordsOf (commits.filter (fun commit => commit.1 ≤ readLsn)) ++
        recordsOf (commits.filter (fun commit => readLsn < commit.1)) = recordsOf commits := by
      rw [recordsOf, recordsOf, ← flatMap_append, Ascending.filter_append_filter ordered, recordsOf]
    have covered := (upTo_empty valueOffset valueLen readLsn).replay (kept (· ≤ readLsn)) name
    rcases versions_replay_newer covered (kept (readLsn < ·)) name secondaryKey primaryKey with
      ⟨_, grown, newer⟩
    rw [← split, replay_append, grown, visibleMembership_append (covered secondaryKey primaryKey) newer]
    change SecondaryIndex.lists _ _ _ = true <-> _
    rw [lists_replay, lists_empty, listedAfter_recordsOf]

/-- One commit puts two keys in and takes the first of them out again, a later
one brings it back. -/
def twoCommits : List (Nat × List Mutation) :=
  [(5, [⟨"i", [1], Key.ofNat 7, true⟩, ⟨"i", [1], Key.ofNat 8, true⟩, ⟨"i", [1], Key.ofNat 7, false⟩]),
    (6, [⟨"i", [1], Key.ofNat 7, true⟩])]

/-- Between the two commits only the second key is listed. -/
theorem queryEqual_commits_twice : ∃ keys : List Key, Key.ofNat 7 ∉ keys ∧ Key.ofNat 8 ∈ keys ∧
    (applyCommits ((∅ : Indexes).insert "i" ⟨0, 1, ∅⟩) twoCommits).queryEqual "i" [1] 5 10 =
      .ok (keys.take 10) := by
  rcases (@queryEqual_commits twoCommits _ "i" _ _ Std.TreeMap.getElem?_insert_self
    (pairwise_pair.mpr (Nat.le_succ 5)) [1] 5 10).mpr (by decide) with ⟨keys, _, members, answer⟩
  refine ⟨keys, ?_, ?_, answer⟩
  · rw [members]
    decide +kernel
  · rw [members]
    decide +kernel

/-- A limit of `2 ^ 59` keys is a panic. -/
theorem queryEqual_panics : ¬ ∀ (indexes : Indexes) (commits : List (Nat × List Mutation)) name
    valueOffset valueLen secondaryKey readLsn limit,
    indexes[name]? = some ⟨valueOffset, valueLen, ∅⟩ ->
    commits.Pairwise (fun earlier later => earlier.1 ≤ later.1) -> limit < 2 ^ 64 ->
    indexes.AnswersFrom commits name secondaryKey readLsn limit := by
  intro answers
  rcases answers ((∅ : Indexes).insert "i" ⟨0, 1, ∅⟩) [] "i" 0 1 [1] 5 (2 ^ 59)
    Std.TreeMap.getElem?_insert_self List.Pairwise.nil (by decide) with ⟨_, _, _, returned⟩
  have found : (applyCommits ((∅ : Indexes).insert "i" ⟨0, 1, ∅⟩) [])["i"]? = some ⟨0, 1, ∅⟩ :=
    Std.TreeMap.getElem?_insert_self
  rcases queryEqual_spec found [1] 5 (2 ^ 59) with ⟨_, _, _, panics⟩
  rw [panics, if_pos (by decide)] at returned
  cases returned

end Indexes

namespace Indexed

open SecondaryIndex Indexes

/-! ## Runs in which the replay is exact -/

/-- The pairs of keys that the log lists under the name of a new index are listed
by its backfill as well. -/
def relists (state : Indexed) (name : String) (valueOffset valueLen : Nat) : Bool :=
  (writePagesDirect state.base.sequencer 1).all (fun catalog =>
    (state.indexes.createBtreeIndex name valueOffset valueLen).toOption.all (fun indexes =>
      state.log.all (fun record =>
        record.mutation.indexName ≠ name ||
          !state.log.lists name record.mutation.secondaryKey record.mutation.primaryKey ||
          (backfill state.base indexes name catalog.durableLsn).any (fun mutation =>
            mutation.secondaryKey = record.mutation.secondaryKey &&
              mutation.primaryKey = record.mutation.primaryKey))))

def recreatesListed (state : Indexed) (action : Action) : Prop :=
  (match action with
    | .createIndex name valueOffset valueLen _ => state.relists name valueOffset valueLen
    | _ => true) = true

instance (state : Indexed) (action : Action) : Decidable (recreatesListed state action) := by
  unfold recreatesListed
  infer_instance

/-- Every index lists the pairs of keys that the log lists under its name. -/
structure Replayable (state : Indexed) : Prop where
  listed : ∀ (name : String) (index : SecondaryIndex), state.indexes[name]? = some index ->
    ∀ secondaryKey primaryKey,
      index.lists secondaryKey primaryKey = state.log.lists name secondaryKey primaryKey
  upTo : ∀ (name : String) (index : SecondaryIndex), state.indexes[name]? = some index ->
    index.UpTo state.durableLsn
  logged : ∀ record ∈ state.log, record.commitLsn ≤ state.durableLsn

section Steps

variable {state next : Indexed}

/-- The mutations make up for what an index does not list yet. -/
theorem apply_replayable
    (upTo : ∀ (name : String) index, state.indexes[name]? = some index ->
      index.UpTo state.durableLsn)
    (logged : ∀ record ∈ state.log, record.commitLsn ≤ state.durableLsn)
    (covered : commitLsn ≤ state.durableLsn)
    (listed : ∀ (name : String) index, state.indexes[name]? = some index ->
      ∀ secondaryKey primaryKey,
        index.lists secondaryKey primaryKey = state.log.lists name secondaryKey primaryKey ∨
          ∃ mutation ∈ mutations,
            (PostingRecord.mk commitLsn mutation).About name secondaryKey primaryKey)
    (taken : state.apply commitLsn mutations = some next) : Replayable next := by
  rcases Option.bind_eq_some_iff.mp taken with ⟨log, appended, applied⟩
  cases applied
  have grown : log = state.log ++ mutations.map (PostingRecord.mk commitLsn) := append_eq_ok appended
  subst grown
  have small : ∀ record ∈ mutations.map (PostingRecord.mk commitLsn),
      record.commitLsn ≤ state.durableLsn := by
    intro record member
    rcases mem_map.mp member with ⟨_, _, rfl⟩
    exact covered
  refine ⟨?_, ?_, ?_⟩
  · intro name index found secondaryKey primaryKey
    rw [applyCommit_eq_replay, lookup_replay] at found
    rcases Option.map_eq_some_iff.mp found with ⟨old, isOld, rfl⟩
    rw [lists_replay]
    unfold PostingLog.lists
    rw [listedAfter_append]
    rcases listed name old isOld secondaryKey primaryKey with same | ⟨_, member, about⟩
    · rw [same]
      rfl
    · exact listedAfter_eq_of_mem (mem_map_of_mem member) about _ _
  · intro name index found
    rw [applyCommit_eq_replay, lookup_replay] at found
    rcases Option.map_eq_some_iff.mp found with ⟨old, isOld, rfl⟩
    exact (upTo name old isOld).replay small name
  · exact forall_mem_append.mpr ⟨logged, small⟩

variable {sequencer after : Sequencer} {base : Embedded RowValue} {indexes : Indexes}
  {name : String} {valueOffset valueLen : Nat}

theorem writePagesDirect_le {pages : Nat} (written : writePagesDirect sequencer pages = some after) :
    sequencer.durableLsn ≤ after.durableLsn := by
  unfold writePagesDirect at written
  split at written
  · cases written
    exact le_rfl
  · dsimp only [Sequencer.allocateRequestId] at written
    rcases Sequencer.reserveTxnWithRequestId_cases
        { sequencer with requestId := (sequencer.requestId + 1) % 2 ^ 64 } pages sequencer.requestId with
      ⟨_, _, reserved⟩ | ⟨_, reserved⟩
    · rw [reserved] at written
      cases written
    · rw [reserved] at written
      cases written
      exact le_max_left _ _

theorem writePagesDirect_foldlM_le {pages : List Nat}
    (written : pages.foldlM writePagesDirect sequencer = some after) :
    sequencer.durableLsn ≤ after.durableLsn := by
  induction pages generalizing sequencer with
  | nil =>
    cases written
    exact le_rfl
  | cons _ _ ih =>
    rcases Option.bind_eq_some_iff.mp written with ⟨_, one, others⟩
    exact (writePagesDirect_le one).trans (ih others)

/-- The indexes and the log stay, or lose an index, while the durable LSN rises. -/
theorem Replayable.keeps (inv : Replayable state) (log : next.log = state.log)
    (indexes : ∀ (name : String) index, next.indexes[name]? = some index ->
      state.indexes[name]? = some index)
    (rises : state.durableLsn ≤ next.durableLsn) : Replayable next := by
  refine ⟨?_, ?_, ?_⟩
  · intro name index found
    rw [log]
    exact inv.listed name index (indexes name index found)
  · intro name index found secondaryKey primaryKey version member
    exact (inv.upTo name index (indexes name index found) secondaryKey primaryKey version member).trans
      rises
  · intro record member
    exact (inv.logged record (log ▸ member)).trans rises

theorem Replayable.follows {action : Embedded.Action RowValue} (inv : Replayable state)
    (stepped : state.base.step action = some base) (taken : state.follow base action = some next) :
    Replayable next := by
  have rises := (Embedded.effect_of_step stepped).1
  have same : Replayable { state with base := base } := inv.keeps rfl (fun _ _ found => found) rises
  cases action with
  | ship =>
    unfold follow at taken
    dsimp only at taken
    rcases Embedded.ship_eq_some stepped with ⟨_, _, _, _, _, rfl | ⟨_, _, _, rfl⟩⟩
    · split at taken
      · split at taken
        · cases taken
          exact same
        · next different => exact absurd rfl different
      · cases taken
        exact same
    · rw [show (Embedded.publish _ _ _ _ _).commits = _ :: _ from rfl, List.head?_cons] at taken
      dsimp only at taken
      rw [length_cons, if_neg (Nat.succ_ne_self _)] at taken
      exact apply_replayable same.upTo same.logged (le_max_right _ _)
        (fun name index found secondaryKey primaryKey =>
          .inl (same.listed name index found secondaryKey primaryKey)) taken
  | _ =>
    cases taken
    exact inv.keeps rfl (fun _ _ found => found) rises

theorem createBtreeIndex_eq_ok {created : Indexes}
    (done : indexes.createBtreeIndex name valueOffset valueLen = .ok created) :
    created = indexes.insert name ⟨valueOffset, valueLen, ∅⟩ := by
  unfold createBtreeIndex at done
  split at done
  · cases done
  · split at done
    · cases done
    · split at done
      · cases done
      · split at done
        · cases done
        · cases done
          rfl

theorem name_of_backfill {mutation : Mutation}
    (planned : mutation ∈ backfill base indexes name readLsn) : mutation.indexName = name := by
  rcases mem_flatMap.mp planned with ⟨_, _, kept⟩
  exact of_decide_eq_true (mem_filter.mp kept).2

theorem Replayable.creates {logPages : List Nat} (inv : Replayable state)
    (relisted : state.relists name valueOffset valueLen = true)
    (taken : state.createIndex name valueOffset valueLen logPages = some next) :
    Replayable next := by
  rcases Option.bind_eq_some_iff.mp taken with ⟨_, written, outcome⟩
  unfold relists at relisted
  rw [written, Option.all_some] at relisted
  cases made : state.indexes.createBtreeIndex name valueOffset valueLen with
  | error =>
    rw [made] at outcome
    cases outcome
    exact inv
  | ok =>
    rw [made] at outcome relisted
    dsimp only at outcome
    split at outcome
    · cases outcome
      exact inv
    split at outcome
    · rcases Option.bind_eq_some_iff.mp outcome with ⟨sequencer, logs, applied⟩
      have covered := writePagesDirect_foldlM_le logs
      have rises : state.durableLsn ≤ sequencer.durableLsn := (writePagesDirect_le written).trans covered
      refine apply_replayable ?_ ?_ covered ?_ applied
      · intro other index found secondaryKey primaryKey version member
        rw [createBtreeIndex_eq_ok made] at found
        rcases lookup_insert_cases found with ⟨_, rfl⟩ | ⟨_, old⟩
        · exact upTo_empty _ _ _ _ _ _ member
        · exact (inv.upTo other index old secondaryKey primaryKey version member).trans rises
      · exact fun record member => (inv.logged record member).trans rises
      · intro other index found secondaryKey primaryKey
        rw [createBtreeIndex_eq_ok made] at found
        rcases lookup_insert_cases found with ⟨rfl, rfl⟩ | ⟨_, old⟩
        · cases listed : state.log.lists other secondaryKey primaryKey with
          | false =>
            exact .inl (lists_empty _ _ _ _)
          | true =>
            right
            rcases exists_of_lists listed with ⟨record, member, rfl, rfl, rfl⟩
            have again := all_eq_true.mp relisted record member
            rw [listed] at again
            simp only [ne_eq, not_true_eq_false, decide_false, Bool.not_true, Bool.false_or,
              any_eq_true, Bool.and_eq_true, decide_eq_true_eq] at again
            rcases again with ⟨mutation, planned, sameSecondary, samePrimary⟩
            exact ⟨mutation, planned, name_of_backfill planned, sameSecondary, samePrimary⟩
        · exact .inl (inv.listed other index old secondaryKey primaryKey)
    · cases outcome

theorem Replayable.step {action : Action} (inv : Replayable state)
    (admitted : recreatesListed state action) (taken : state.step action = some next) :
    Replayable next := by
  cases action with
  | base =>
    rcases Option.bind_eq_some_iff.mp taken with ⟨_, stepped, followed⟩
    exact inv.follows stepped followed
  | createIndex => exact inv.creates admitted taken
  | dropIndex =>
    simp only [Indexed.step, dropIndex] at taken
    split at taken
    · rcases Option.bind_eq_some_iff.mp taken with ⟨_, written, dropped⟩
      cases dropped
      refine inv.keeps rfl ?_ (writePagesDirect_le written)
      exact fun other index found => (lookup_erase_cases found).2
    · cases taken
      exact inv

end Steps

theorem replayable_of_reaches {sequencer : Sequencer} {final : Indexed}
    (reached : Reaches step recreatesListed (created sequencer) final) : Replayable final := by
  apply reached.invariant
  · refine ⟨?_, ?_, nofun⟩
    · intro _ _ found
      cases Std.TreeMap.getElem?_emptyc.symm.trans found
    · intro _ _ found
      cases Std.TreeMap.getElem?_emptyc.symm.trans found
  · intro _ _ _ inv admitted taken
    exact inv.step admitted taken

theorem backfillNext_of_none {base : Embedded RowValue} {logPages : String -> List Nat}
    (nothing : settledRows base base.sequencer.durableLsn = []) (entries : List (String × SecondaryIndex)) :
    entries.foldlM (backfillNext base logPages) (base.sequencer, indexes) =
      some (base.sequencer, indexes) := by
  induction entries with
  | nil => rfl
  | cons first _ ih =>
    have idle : backfillNext base logPages (base.sequencer, indexes) first =
        some (base.sequencer, indexes) := by
      unfold backfillNext backfill
      rw [nothing]
      rfl
    rw [foldlM_cons, idle]
    exact ih

/-- A restart replays the log, unless the log is empty and there are rows to read. -/
theorem restart_eq {state : Indexed} (logPages : String -> List Nat)
    (loads : state.log ≠ [] ∨ state.indexes.isEmpty = true ∨ settledRows state.base state.durableLsn = []) :
    state.restart logPages = some (state.indexes.definitions.replay state.log) := by
  dsimp only [restart]
  split
  · next empty =>
    rw [List.isEmpty_iff.mp empty] at loads ⊢
    rcases loads with impossible | noIndex | nothing
    · exact absurd rfl impossible
    · have none : state.indexes.definitions.toList = [] := by
        unfold definitions
        rw [← List.isEmpty_iff, Std.TreeMap.isEmpty_toList, Std.TreeMap.isEmpty_map]
        exact noIndex
      rw [none]
      rfl
    · rw [backfillNext_of_none nothing]
      rfl
  · rfl

/-- The steps of a transaction that puts one row. -/
def putRow (id : TxnId) (key : Key) (value : RowValue) : List Action :=
  [.begin id false, .put id key value, .insert id, .commit id, .prestamp id, .reserve id 4, .stamp id,
    .ship id true].map Action.base

end Indexed

end Compute
end ScaleKv
