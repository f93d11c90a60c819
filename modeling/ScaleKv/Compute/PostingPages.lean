import ScaleKv.Compute.SecondaryIndex

namespace ScaleKv
namespace Compute

open Foundation OrderedMap

/-!
# The pages of the posting log

`append_secondary_posting_log` takes numbers for new pages from the shared state
of the log while it packs the records.  The pages themselves are written at the
end, together with the catalog, and an error on the way leaves the state as it is
at that point.
-/

/-- The records of a page in order, and the number of the next page. -/
structure LogPage where
  records : List PostingRecord
  nextPageId : PageId

namespace LogPage

def new : LogPage := ⟨[], 0⟩

def used (page : LogPage) : Nat := (page.records.map PostingRecord.length).sum

/-- `append_record`; nothing when the record does not fit behind the others. -/
def appendRecord (page : LogPage) (record : PostingRecord) : Except Error (Option LogPage) :=
  if record.mutation.indexName.isEmpty ∨ 65535 < record.mutation.indexName.utf8ByteSize then
    .error (.io .invalidInput "invalid index name length")
  else if 65535 < record.mutation.secondaryKey.length then
    .error (.io .invalidInput "invalid secondary key length")
  else if pageSize < 22 + page.used + record.length then .ok none
  else .ok (some { page with records := page.records ++ [record] })

end LogPage

/-- `SecondaryPostingLogState`. -/
structure PostingLogState where
  headPageId : PageId
  tailPageId : PageId
  nextPageId : PageId
deriving DecidableEq

namespace PostingLogState

def default : PostingLogState := ⟨0, 0, 3000000⟩

/-- `next_page_id.saturating_add(1)`. -/
def takePageId (state : PostingLogState) : PostingLogState :=
  { state with nextPageId := min (state.nextPageId + 1) (2 ^ 64 - 1) }

/-- The loop over the mutations, with the tail page and the pages to write. -/
def appendAll (commitLsn : Nat) : List Mutation -> PostingLogState -> PageId -> LogPage ->
    Std.TreeMap PageId LogPage -> Except Error (Std.TreeMap PageId LogPage) × PostingLogState
  | [], state, tailPageId, tail, writes => (.ok (writes.insert tailPageId tail), state)
  | mutation :: rest, state, tailPageId, tail, writes =>
    match tail.appendRecord ⟨commitLsn, mutation⟩ with
    | .error error => (.error error, state)
    | .ok (some tail) => appendAll commitLsn rest state tailPageId tail writes
    | .ok none =>
      let newId := state.nextPageId
      let state := state.takePageId
      match LogPage.new.appendRecord ⟨commitLsn, mutation⟩ with
      | .error error => (.error error, state)
      | .ok none => (.error (.io .invalidInput "posting mutation record too large"), state)
      | .ok (some page) =>
        appendAll commitLsn rest { state with tailPageId := newId } newId page
          (writes.insert tailPageId { tail with nextPageId := newId })

/-- The page to begin with: the tail page, from the cache or from storage, or the
first page of the log. -/
def firstTail (tailPage : PageId -> Except Error LogPage) (state : PostingLogState) :
    Except Error LogPage × PostingLogState :=
  if state.tailPageId = 0 then
    (.ok .new, { state.takePageId with
      headPageId := state.nextPageId, tailPageId := state.nextPageId })
  else (tailPage state.tailPageId, state)

/-- `append_secondary_posting_log`; the catalog is encoded with the state as it is then. -/
def append (tailPage : PageId -> Except Error LogPage)
    (encodeCatalog : PostingLogState -> Except Error Unit)
    (writePagesDirect : List (PageId × LogPage) -> Except Error Unit) (commitLsn : Nat)
    (mutations : List Mutation) (state : PostingLogState) : Except Error Unit × PostingLogState :=
  if mutations.isEmpty then (.ok (), state)
  else
    match state.firstTail tailPage with
    | (.error error, state) => (.error error, state)
    | (.ok tail, state) =>
      match appendAll commitLsn mutations state state.tailPageId tail ∅ with
      | (.error error, state) => (.error error, state)
      | (.ok writes, state) => (do encodeCatalog state; writePagesDirect writes.toList, state)

/-- No record asks for another page before the loop ends or refuses a record. -/
def staysOnTail (commitLsn : Nat) : List Mutation -> LogPage -> Bool
  | [], _ => true
  | mutation :: rest, tail =>
    match tail.appendRecord ⟨commitLsn, mutation⟩ with
    | .error _ => true
    | .ok (some tail) => staysOnTail commitLsn rest tail
    | .ok none => false

variable {commitLsn : Nat} {mutations : List Mutation} {state : PostingLogState}

theorem takePageId_isWord : state.takePageId.nextPageId < 2 ^ 64 :=
  Nat.lt_of_le_of_lt (Nat.min_le_right _ _) (by decide)

theorem ne_of_taken {final : PostingLogState} (room : state.nextPageId < 2 ^ 64 - 1)
    (above : state.takePageId.nextPageId ≤ final.nextPageId) : final ≠ state := by
  rintro rfl
  exact Nat.not_succ_le_self _ ((Nat.min_eq_left room).symm.trans_le above)

section Loop

variable {tailPageId : PageId} {tail : LogPage} {writes : Std.TreeMap PageId LogPage}

theorem nextPageId_le_appendAll (isWord : state.nextPageId < 2 ^ 64) :
    state.nextPageId ≤ (appendAll commitLsn mutations state tailPageId tail writes).2.nextPageId := by
  induction mutations generalizing state tailPageId tail writes with
  | nil => exact le_rfl
  | cons head rest ih =>
    have taken : state.nextPageId ≤ state.takePageId.nextPageId :=
      Nat.le_min.mpr ⟨Nat.le_succ _, Nat.le_pred_of_lt isWord⟩
    unfold appendAll
    split
    · exact le_rfl
    · exact ih isWord
    · dsimp only
      split
      · exact taken
      · exact taken
      · exact taken.trans (@ih { state.takePageId with tailPageId := state.nextPageId } _ _ _
          takePageId_isWord)

/-- A page number that the loop takes is gone for good. -/
theorem appendAll_keeps_state_iff (room : state.nextPageId < 2 ^ 64 - 1) :
    (appendAll commitLsn mutations state tailPageId tail writes).2 = state <->
      staysOnTail commitLsn mutations tail = true := by
  induction mutations generalizing tail with
  | nil => exact iff_of_true rfl rfl
  | cons head rest ih =>
    unfold appendAll staysOnTail
    cases tail.appendRecord ⟨commitLsn, head⟩ with
    | error => exact iff_of_true rfl rfl
    | ok appended =>
      cases appended with
      | some grownTail => exact ih
      | none =>
        refine iff_of_false ?_ Bool.false_ne_true
        dsimp only
        split
        · exact ne_of_taken room le_rfl
        · exact ne_of_taken room le_rfl
        · exact ne_of_taken room (@nextPageId_le_appendAll _ _
            { state.takePageId with tailPageId := state.nextPageId } _ _ _ takePageId_isWord)

end Loop

variable {tailPage : PageId -> Except Error LogPage}
  {encodeCatalog : PostingLogState -> Except Error Unit}
  {writePagesDirect : List (PageId × LogPage) -> Except Error Unit}

/-- An append that fails leaves the state alone exactly if the log has a tail page
already and the loop, if it can read that page, takes no other. -/
theorem append_keeps_state {error : Error} (room : state.nextPageId < 2 ^ 64 - 1)
    (failed : (append tailPage encodeCatalog writePagesDirect commitLsn mutations state).1 =
      .error error) :
    (append tailPage encodeCatalog writePagesDirect commitLsn mutations state).2 = state <->
      state.tailPageId ≠ 0 ∧ ∀ tail, tailPage state.tailPageId = .ok tail ->
        staysOnTail commitLsn mutations tail = true := by
  have packed : ∀ packed tail, (match appendAll commitLsn mutations packed packed.tailPageId tail ∅ with
      | (.error error, final) => (Except.error error, final)
      | (.ok writes, final) => (do encodeCatalog final; writePagesDirect writes.toList, final)).2 =
        (appendAll commitLsn mutations packed packed.tailPageId tail ∅).2 := by
    intro packed tail
    split
    · next appended => rw [appended]
    · next appended => rw [appended]
  unfold append at failed ⊢
  split at failed
  · cases failed
  · next some =>
    rw [if_neg some, firstTail]
    by_cases fresh : state.tailPageId = 0
    · -- the first page of the log takes a number before anything can fail
      rw [if_pos fresh]
      refine iff_of_false ?_ (fun kept => kept.1 fresh)
      rw [packed]
      exact ne_of_taken room (@nextPageId_le_appendAll commitLsn mutations { state.takePageId with
        headPageId := state.nextPageId, tailPageId := state.nextPageId } _ .new ∅ takePageId_isWord)
    · rw [if_neg fresh]
      cases found : tailPage state.tailPageId with
      | error => exact iff_of_true rfl ⟨fresh, fun _ => nofun⟩
      | ok tail =>
        dsimp only
        rw [packed, appendAll_keeps_state_iff room]
        exact ⟨fun stays => ⟨fresh, fun _ same => Except.ok.inj same ▸ stays⟩, fun kept => kept.2 tail rfl⟩

/-- Two mutations behind a record that is there, and a quorum that is not reached. -/
theorem append_keeps_state_missed_quorum :
    (append (fun _ => .ok ⟨[⟨4, ⟨"a", [1], Key.ofNat 1, true⟩⟩], 0⟩) (fun _ => .ok ())
      (fun _ => .error (.io .other "quorum")) 5
      [⟨"a", [1], Key.ofNat 1, false⟩, ⟨"a", [2], Key.ofNat 1, true⟩] ⟨3000000, 3000000, 3000001⟩).2 =
      ⟨3000000, 3000000, 3000001⟩ := by
  refine (append_keeps_state (by decide) rfl).mpr ⟨by decide, ?_⟩
  rintro tail ⟨⟩
  decide

/-- The first append to a log takes a page number and keeps it when the quorum is missed. -/
theorem append_changes_state : ¬ ∀ tailPage encodeCatalog writePagesDirect commitLsn mutations
    state error, (append tailPage encodeCatalog writePagesDirect commitLsn mutations state).1 =
      .error error ->
    (append tailPage encodeCatalog writePagesDirect commitLsn mutations state).2 = state := by
  intro keeps
  have same := keeps (fun id => .error (.inMemoryPageMissing id)) (fun _ => .ok ())
    (fun _ => .error (.io .other "quorum")) 5 [⟨"a", [1], Key.ofNat 1, true⟩] default
    (.io .other "quorum") rfl
  exact absurd same (by decide)

end PostingLogState

/-! ## The log on the pages -/

namespace LogPage

/-- The records from one page to another, read along the page numbers as
`replay_secondary_posting_log` does. -/
inductive Chain (pages : PageId -> Option LogPage) : PageId -> PageId -> PostingLog -> Prop
  | last {id page} : pages id = some page -> page.nextPageId = 0 -> Chain pages id id page.records
  | next {id last page rest} : pages id = some page -> id < page.nextPageId ->
      Chain pages page.nextPageId last rest -> Chain pages id last (page.records ++ rest)

variable {pages : PageId -> Option LogPage} {first last : PageId} {log : PostingLog}

theorem Chain.le (chain : Chain pages first last log) : first ≤ last := by
  induction chain with
  | last => exact le_rfl
  | next _ ascends _ ih => exact ascends.le.trans ih

/-- The last page may be written again, with other pages behind it. -/
theorem Chain.extend (chain : Chain pages first last log) :
    ∃ tail, pages last = some tail ∧ tail.nextPageId = 0 ∧ ∀ after final records,
      (∀ id < last, after id = pages id) -> Chain after last final (tail.records ++ records) ->
      Chain after first final (log ++ records) := by
  induction chain with
  | last found ended => exact ⟨_, found, ended, fun _ _ _ _ behind => behind⟩
  | next found ascends rest ih =>
    rcases ih with ⟨tail, isTail, ended, extends_⟩
    refine ⟨tail, isTail, ended, ?_⟩
    intro after final records kept behind
    rw [List.append_assoc]
    exact .next ((kept _ (ascends.trans_le rest.le)).trans found) ascends
      (extends_ after final records kept behind)

theorem appendRecord_eq_some {page grown : LogPage} {record : PostingRecord}
    (appended : page.appendRecord record = .ok (some grown)) :
    grown = { page with records := page.records ++ [record] } ∧ record.check = .ok () := by
  unfold appendRecord at appended
  split_ifs at appended with named short full
  · cases appended
  · cases appended
    refine ⟨rfl, ?_⟩
    rw [PostingRecord.check, if_neg named, if_neg short, if_neg (by omega)]

end LogPage

namespace PostingLogState

open LogPage

variable {commitLsn : Nat} {mutations : List Mutation} {state final : PostingLogState}
  {pages : PageId -> Option LogPage} {log : PostingLog}

/-- The pages that the loop writes have the records behind those of the tail page. -/
theorem appendAll_chain (pages : PageId -> Option LogPage) {tailPageId : PageId} {tail : LogPage}
    {writes written : Std.TreeMap PageId LogPage} (ended : tail.nextPageId = 0)
    (isTail : state.tailPageId = tailPageId) (taken : tailPageId < state.nextPageId)
    (room : mutations.length + state.nextPageId < 2 ^ 64)
    (packed : appendAll commitLsn mutations state tailPageId tail writes = (.ok written, final)) :
    forM (mutations.map (PostingRecord.mk commitLsn)) PostingRecord.check = .ok () ∧
      Chain (fun id => written[id]?.or (pages id)) tailPageId final.tailPageId
        (tail.records ++ mutations.map (PostingRecord.mk commitLsn)) ∧
      final.headPageId = state.headPageId ∧ final.tailPageId < final.nextPageId ∧
      ∀ id < state.nextPageId, id ≠ tailPageId -> written[id]? = writes[id]? := by
  induction mutations generalizing state tailPageId tail writes with
  | nil =>
    cases packed
    rw [isTail, List.map_nil, List.append_nil]
    exact ⟨rfl, .last (by rw [Std.TreeMap.getElem?_insert_self, Option.some_or]) ended, rfl, taken,
      fun id _ other => lookup_insert_of_ne _ _ other.symm⟩
  | cons head rest ih =>
    rw [List.length_cons] at room
    rw [List.map_cons, List.forM_cons]
    unfold appendAll at packed
    split at packed
    · cases packed
    · next appended =>
      rcases appendRecord_eq_some appended with ⟨rfl, checked⟩
      rw [checked]
      have later := @ih _ _ { tail with records := tail.records ++ [_] } _ ended isTail taken
        (by omega) packed
      rwa [List.append_assoc] at later
    · -- the record goes to a new page, and its number into the tail page
      dsimp only at packed
      split at packed
      · cases packed
      · cases packed
      · next appended =>
        rcases appendRecord_eq_some appended with ⟨rfl, checked⟩
        have raised : state.takePageId.nextPageId = state.nextPageId + 1 := Nat.min_eq_left (by omega)
        have older : ∀ id < state.nextPageId, id < state.takePageId.nextPageId :=
          fun _ old => raised ▸ Nat.lt_succ_of_lt old
        rcases @ih { state.takePageId with tailPageId := state.nextPageId } _ _ _ rfl rfl
          (raised ▸ Nat.lt_succ_self _) (by dsimp only; rw [raised]; omega) packed with
          ⟨restChecked, chain, sameHead, below, kept⟩
        rw [checked]
        refine ⟨restChecked, @Chain.next _ _ _ { tail with nextPageId := state.nextPageId } _ ?_ taken
          chain, sameHead, below, ?_⟩
        · rw [kept tailPageId (older _ taken) taken.ne, Std.TreeMap.getElem?_insert_self, Option.some_or]
        · intro id old other
          rw [kept id (older id old) old.ne, lookup_insert_of_ne _ _ other.symm]

/-- The pages from the head to the tail hold the log. -/
structure Holds (pages : PageId -> Option LogPage) (state : PostingLogState) (log : PostingLog) :
    Prop where
  taken : state.tailPageId < state.nextPageId
  chain : if state.tailPageId = 0 then log = [] else
    Chain pages state.headPageId state.tailPageId log

variable {tailPage : PageId -> Except Error LogPage} (held : state.Holds pages log)
  (reads : ∀ tail, pages state.tailPageId = some tail -> tailPage state.tailPageId = .ok tail)
  (room : mutations.length + state.nextPageId < 2 ^ 64 - 1)

include held reads room

theorem Holds.firstTail {started : PostingLogState} {tail : LogPage}
    (begins : state.firstTail tailPage = (.ok tail, started)) :
    tail.nextPageId = 0 ∧ 0 < started.tailPageId ∧ started.tailPageId < started.nextPageId ∧
      mutations.length + started.nextPageId < 2 ^ 64 ∧ ∀ after last records,
        (∀ id < started.tailPageId, after id = pages id) ->
        Chain after started.tailPageId last (tail.records ++ records) ->
        Chain after started.headPageId last (log ++ records) := by
  have chain := held.chain
  unfold PostingLogState.firstTail at begins
  by_cases fresh : state.tailPageId = 0
  · rw [if_pos fresh] at chain begins
    cases begins
    have raised : state.takePageId.nextPageId = state.nextPageId + 1 := Nat.min_eq_left (by omega)
    refine ⟨rfl, fresh ▸ held.taken, raised ▸ Nat.lt_succ_self _, by dsimp only; rw [raised]; omega, ?_⟩
    rw [chain]
    exact fun _ _ _ _ behind => behind
  · rw [if_neg fresh] at chain begins
    rcases chain.extend with ⟨_, found, ended, extends_⟩
    rw [reads _ found] at begins
    cases begins
    exact ⟨ended, Nat.pos_of_ne_zero fresh, held.taken, by omega, extends_⟩

/-- An append that returns `Ok` is one to the log: the pages that it has written, with
those that were there, hold the records of both. -/
theorem append_refines {encodeCatalog : PostingLogState -> Except Error Unit}
    {writePagesDirect : List (PageId × LogPage) -> Except Error Unit} (notEmpty : mutations ≠ [])
    (done : append tailPage encodeCatalog writePagesDirect commitLsn mutations state = (.ok (), final)) :
    ∃ (written : Std.TreeMap PageId LogPage) (grown : PostingLog),
      writePagesDirect written.toList = .ok () ∧ log.append commitLsn mutations = .ok grown ∧
        final.Holds (fun id => written[id]?.or (pages id)) grown := by
  unfold append at done
  rw [if_neg (by simpa using notEmpty)] at done
  split at done
  · cases done
  · next begins =>
    split at done
    · cases done
    · next written _ packed =>
      rcases Prod.mk.inj done with ⟨returned, rfl⟩
      rcases bind_eq_ok.mp returned with ⟨_, _, stored⟩
      rcases held.firstTail reads room begins with ⟨ended, positive, taken, room, extends_⟩
      rcases appendAll_chain pages ended rfl taken room packed with
        ⟨checked, behind, sameHead, below, kept⟩
      refine ⟨written, log ++ mutations.map (PostingRecord.mk commitLsn), stored, ?_, below, ?_⟩
      · unfold PostingLog.append
        dsimp only
        rw [List.forM_eq_forM, checked]
        rfl
      · rw [if_neg (positive.trans_le behind.le).ne', sameHead]
        refine extends_ _ _ _ ?_ behind
        intro id before
        rw [kept id (before.trans taken) before.ne, Std.TreeMap.getElem?_emptyc, Option.none_or]

end PostingLogState
end Compute
end ScaleKv
