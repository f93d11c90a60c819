import ScaleKv.BTree.Page
import ScaleKv.Compute.UndoLog
import ScaleKv.Foundation.Ascending
import ScaleKv.Foundation.Lru

namespace ScaleKv
namespace Compute

open Foundation List Std OrderedMap

/-!
# Restart of the compute node

`connect` first pulls all pages from storage through the page cache and then
looks there for the META page.  If it finds the page it recovers, else it takes
storage for empty and initialises a new database.  The page cache is an array of
LRU caches, so that the answer depends on how many stored pages fall into the
shard of the META page.

Scans are taken to succeed and to return the stored pages in ascending order.
The recovery of the secondary indexes, which follows and writes only the pages
of the catalog and of the posting log, is left out.
-/

def defaultPageCacheShards : Nat := 64

/-- The capacity that `connect` uses if the environment names no other. -/
def defaultCapacityPages : Nat := 8 * 1024

structure PageCache (Image : Type) where
  shards : List (Lru PageId Image)

namespace PageCache

variable {Image : Type}

/-- The number of pages in each shard. -/
def perShard (shards capacityPages : Nat) : Nat :=
  max ((max capacityPages 1 + max shards 1 - 1) / max shards 1) 1

theorem perShard_pos (shards capacityPages : Nat) : 0 < perShard shards capacityPages :=
  Nat.lt_of_lt_of_le Nat.zero_lt_one (Nat.le_max_right _ _)

def newWithCapacity (shards capacityPages : Nat) : PageCache Image :=
  { shards := List.replicate (max shards 1)
      (Lru.empty (perShard shards capacityPages) (perShard_pos shards capacityPages)) }

def shard (cache : PageCache Image) (pageId : PageId) : Nat := pageId % cache.shards.length

def get (cache : PageCache Image) (pageId : PageId) : Option Image × PageCache Image :=
  match cache.shards[cache.shard pageId]? with
  | none => (none, cache)
  | some shard =>
    ((shard.get pageId).1, { shards := cache.shards.set (cache.shard pageId) (shard.get pageId).2 })

def insert (cache : PageCache Image) (pageId : PageId) (page : Image) : PageCache Image :=
  { shards := cache.shards.modify (cache.shard pageId) (fun shard => shard.put pageId page) }

def insertAll (cache : PageCache Image) (pages : List (PageId × Image)) : PageCache Image :=
  pages.foldl (fun filled entry => filled.insert entry.1 entry.2) cache

variable (cache : PageCache Image)

include cache

theorem get_fst (pageId : PageId) :
    (cache.get pageId).1 = cache.shards[cache.shard pageId]?.bind (fun shard => shard.peek pageId) := by
  unfold get
  split
  · next missing => rw [missing, Option.bind_none]
  · next shard found => rw [found, Option.bind_some, shard.get_fst]

theorem get_other_shard {used pageId : PageId} (different : cache.shard used ≠ cache.shard pageId) :
    ((cache.get used).2.get pageId).1 = (cache.get pageId).1 := by
  rw [get_fst, get_fst]
  unfold get
  split
  · rfl
  · next shard _ =>
    have sameShard : PageCache.shard
        { shards := cache.shards.set (cache.shard used) (shard.get used).2 } pageId = cache.shard pageId := by
      unfold PageCache.shard
      rw [length_set]
    rw [sameShard, List.getElem?_set_ne different]

theorem insertAll_append (first second : List (PageId × Image)) :
    cache.insertAll (first ++ second) = (cache.insertAll first).insertAll second :=
  foldl_append

theorem insertAll_length (pages : List (PageId × Image)) :
    (cache.insertAll pages).shards.length = cache.shards.length := by
  induction pages generalizing cache with
  | nil => rfl
  | cons first _ ih =>
    exact (ih (cache.insert first.1 first.2)).trans (length_modify ..)

theorem insertAll_shard (pages : List (PageId × Image)) (index : Nat) :
    (cache.insertAll pages).shards[index]? = cache.shards[index]?.map (fun shard =>
      shard.putAll (pages.filter (fun entry => entry.1 % cache.shards.length = index))) := by
  induction pages generalizing cache with
  | nil =>
    exact Option.map_id'.symm
  | cons first rest ih =>
    have sameLength : (cache.insert first.1 first.2).shards.length = cache.shards.length :=
      length_modify ..
    show ((cache.insert first.1 first.2).insertAll rest).shards[index]? = _
    rw [ih, sameLength]
    show ((cache.shards.modify (first.1 % cache.shards.length) _)[index]?).map _ = _
    rw [List.getElem?_modify, Option.map_eq_map, Option.map_map]
    apply congrArg (fun change => Option.map change cache.shards[index]?)
    funext shard
    by_cases here : first.1 % cache.shards.length = index
    · rw [filter_cons, if_pos (decide_eq_true here), Function.comp, if_pos here]
      rfl
    · rw [filter_cons, if_neg (fun holds => here (of_decide_eq_true holds)), Function.comp,
        if_neg here]

end PageCache

/-! ## Stored pages -/

/-- `MetaPage` with all its fields. -/
structure GlobalMeta where
  rootPageId : PageId
  nextBptreePageId : PageId
  nextDataPageId : PageId
  undo : MetaPage
deriving DecidableEq

/-- A page image, as far as it decodes. -/
inductive StoredPage (Value : Type)
  | globalMeta (content : GlobalMeta)
  | btreeMeta (rootPageId : PageId)
  | tree (page : BTree.Page Value)
  | other (bytes : Bytes)

namespace StoredPage

variable {Value : Type}

def metaPageId : PageId := 0

def btreeMetaPageId : PageId := 8

def bptreeRootId : PageId := 10

/-- `MetaPage::decode`. -/
def decodeMeta : StoredPage Value -> Except Error GlobalMeta
  | .globalMeta content => .ok content
  | _ => .error (.io .invalidData "invalid meta page magic")

/-- `BtreeMeta::decode`. -/
def decodeBtreeMeta : StoredPage Value -> Except Error PageId
  | .btreeMeta rootPageId => .ok rootPageId
  | _ => .error (.io .invalidData "invalid btree meta magic")

end StoredPage

/-- What a storage node holds. -/
abbrev Stored (Value : Type) := TreeMap PageId (StoredPage Value)

/-- What `recover_or_init` leaves: the provider's root page and counter, and the
pages that it has written to storage. -/
structure Connected (Value : Type) where
  rootPageId : PageId
  nextPageId : PageId
  writes : List (PageId × StoredPage Value)

namespace Restart

variable {Value : Type}

open StoredPage

/-- The reply to `scanPages`. -/
def scanPages (stored : Stored Value) (start limit : Nat) : List (PageId × StoredPage Value) :=
  (stored.toList.filter (fun entry => start ≤ entry.1)).take limit

/-- `saturating_add(1)` on page ids. -/
def following (pageId : PageId) : PageId := min (pageId + 1) (2 ^ 64 - 1)

/-- The loop of `warmup_scan_all`, with as many rounds as given. -/
def warmupScanAll (stored : Stored Value) (limitPerBatch : Nat) :
    Nat -> PageId -> PageCache (StoredPage Value) -> Option (PageCache (StoredPage Value))
  | 0, _, _ => none
  | rounds + 1, start, cache =>
    let pages := scanPages stored start (max limitPerBatch 1)
    match pages.getLast? with
    | none => some cache
    | some last => warmupScanAll stored limitPerBatch rounds (following last.1) (cache.insertAll pages)

/-- The recovery branch of `recover_or_init`, with the META page and the B-tree
meta page that the cache has returned. -/
def recover (metaImage : StoredPage Value) (btreeImage : Option (StoredPage Value)) :
    Except Error (Connected Value) := do
  let content <- metaImage.decodeMeta
  let raised := { content with undo := content.undo.raised }
  let writes :=
    if content.undo.nextUndoPageId < undoBase then [(metaPageId, .globalMeta raised)] else []
  let rootPageId <- match btreeImage with
    | some image => image.decodeBtreeMeta
    | none => pure content.rootPageId
  return { rootPageId := rootPageId, nextPageId := content.nextBptreePageId, writes := writes }

/-- The pages of a new database. -/
def initialPages : List (PageId × StoredPage Value) :=
  [(bptreeRootId, .tree (.leaf (.new 0) [])),
    (btreeMetaPageId, .btreeMeta bptreeRootId),
    (metaPageId, .globalMeta
      { rootPageId := bptreeRootId
        nextBptreePageId := bptreeRootId + 1
        nextDataPageId := 1000000
        undo := .initial })]

/-- The other branch: one transaction writes the pages of a new database. -/
def initialise : Connected Value :=
  { rootPageId := bptreeRootId, nextPageId := bptreeRootId + 1, writes := initialPages }

/-- `recover_or_init` behind `connect`. -/
def recoverOrInit (stored : Stored Value) (capacityPages rounds : Nat) :
    Option (Except Error (Connected Value)) := do
  let cache <- warmupScanAll stored 256 rounds 0 (.newWithCapacity defaultPageCacheShards capacityPages)
  match cache.get metaPageId with
  | (some metaImage, cache) => return recover metaImage (cache.get btreeMetaPageId).1
  | (none, _) => return .ok initialise

/-! ## The scan -/

/-- The pages that are still to be scanned. -/
def remaining (stored : Stored Value) (start : PageId) : List (PageId × StoredPage Value) :=
  stored.toList.filter (fun entry => start ≤ entry.1)

theorem ascending (stored : Stored Value) :
    stored.toList.Pairwise (fun left right => left.1 < right.1) :=
  TreeMap.ordered_keys_toList.imp (fun below => compare_lt_iff_lt.mp below)

variable {stored : Stored Value} {rounds capacityPages : Nat} {pageId : PageId}
  {content : GlobalMeta} {connected : Connected Value}

section

variable (bounded : ∀ entry ∈ stored.toList, entry.1 < 2 ^ 64 - 1)

include bounded

theorem remaining_following {start limit : Nat} {last : PageId × StoredPage Value}
    (isLast : (scanPages stored start limit).getLast? = some last) :
    remaining stored start = scanPages stored start limit ++ remaining stored (following last.1) := by
  have member : last ∈ remaining stored start :=
    (take_sublist _ _).subset (mem_of_getLast? isLast)
  rcases mem_filter.mp member with ⟨inside, above⟩
  have next : following last.1 = last.1 + 1 := min_eq_left (bounded last inside)
  have split : remaining stored start =
      scanPages stored start limit ++ (remaining stored start).drop limit :=
    (take_append_drop limit _).symm
  have sorted : (remaining stored start).Pairwise (fun left right => left.1 < right.1) :=
    (ascending stored).filter _
  rw [split] at sorted
  rcases pairwise_append.mp sorted with ⟨taken, _, apart⟩
  have restOf : remaining stored (following last.1) =
      (remaining stored start).filter (fun entry => following last.1 ≤ entry.1) := by
    unfold remaining
    rw [filter_filter]
    apply filter_congr
    intro entry _
    apply Bool.eq_iff_iff.mpr
    rw [Bool.and_eq_true, decide_eq_true_eq, decide_eq_true_eq, next]
    constructor
    · exact fun behind => ⟨behind, (of_decide_eq_true above).trans ((Nat.le_succ _).trans behind)⟩
    · exact fun both => both.1
  have nothing : (scanPages stored start limit).filter (fun entry => following last.1 ≤ entry.1) = [] := by
    apply filter_eq_nil_iff.mpr
    intro entry listed behind
    rcases Ascending.eq_or_lt_getLast? taken isLast listed with rfl | below
    · exact absurd (next.ge.trans (of_decide_eq_true behind)) (Nat.not_succ_le_self _)
    · exact absurd (next.ge.trans (of_decide_eq_true behind)) (Nat.not_le_of_lt (Nat.lt_succ_of_lt below))
  have everything : ((remaining stored start).drop limit).filter (fun entry => following last.1 ≤ entry.1) =
      (remaining stored start).drop limit := by
    apply filter_eq_self.mpr
    intro entry listed
    apply decide_eq_true
    rw [next]
    exact apart last (mem_of_getLast? isLast) entry listed
  rw [restOf]
  nth_rewrite 2 [split]
  rw [filter_append, nothing, everything, nil_append]
  exact split

/-- With a round for each page and one more, the scan puts all pages into the
cache, in the order of their ids. -/
theorem warmupScanAll_eq {limitPerBatch : Nat} {start : PageId}
    (enough : (remaining stored start).length < rounds) (cache : PageCache (StoredPage Value)) :
    warmupScanAll stored limitPerBatch rounds start cache =
      some (cache.insertAll (remaining stored start)) := by
  induction rounds generalizing start cache with
  | zero => exact absurd enough (Nat.not_lt_zero _)
  | succ rounds ih =>
    unfold warmupScanAll
    dsimp only
    split
    · next empty =>
      have nothing := List.getLast?_eq_none_iff.mp empty
      have none_ : remaining stored start = [] := by
        rcases take_eq_nil_iff.mp nothing with zero | nil
        · exact absurd zero (Nat.ne_of_gt (Nat.lt_of_lt_of_le Nat.zero_lt_one (Nat.le_max_right _ _)))
        · exact nil
      rw [none_]
      rfl
    · next last isLast =>
      have parts := remaining_following bounded isLast
      have some_ : 0 < (scanPages stored start (max limitPerBatch 1)).length :=
        length_pos_of_mem (mem_of_getLast? isLast)
      have fewer : (remaining stored (following last.1)).length < rounds := by
        rw [parts, length_append] at enough
        omega
      rw [ih fewer, parts, PageCache.insertAll_append]

end

/-! ## What the cache holds after the scan -/

/-- The stored pages whose ids fall into a shard. -/
def shardPages (stored : Stored Value) (index : Nat) : List (PageId × StoredPage Value) :=
  stored.toList.filter (fun entry => entry.1 % defaultPageCacheShards = index)

/-- The cache that the scan leaves. -/
def warm (stored : Stored Value) (capacityPages : Nat) : PageCache (StoredPage Value) :=
  (PageCache.newWithCapacity defaultPageCacheShards capacityPages).insertAll stored.toList

theorem remaining_zero (stored : Stored Value) : remaining stored 0 = stored.toList :=
  filter_eq_self.mpr (fun _ _ => decide_eq_true (Nat.zero_le _))

theorem warm_shard (stored : Stored Value) (capacityPages : Nat) {index : Nat}
    (inside : index < defaultPageCacheShards) :
    (warm stored capacityPages).shards[index]? = some
      ((Lru.empty (PageCache.perShard defaultPageCacheShards capacityPages)
        (PageCache.perShard_pos _ _)).putAll (shardPages stored index)) := by
  unfold warm
  rw [PageCache.insertAll_shard]
  show (List.replicate defaultPageCacheShards _)[index]?.map _ = _
  rw [List.getElem?_replicate_of_lt inside, Option.map_some]
  rw [show (PageCache.newWithCapacity defaultPageCacheShards capacityPages :
    PageCache (StoredPage Value)).shards.length = defaultPageCacheShards from length_replicate ..]
  rfl

theorem warm_shard_of_small (small : pageId < defaultPageCacheShards) :
    (warm stored capacityPages).shard pageId = pageId := by
  unfold PageCache.shard warm
  rw [PageCache.insertAll_length]
  show pageId % (List.replicate defaultPageCacheShards _).length = pageId
  rw [length_replicate, Nat.mod_eq_of_lt small]

theorem shardPages_distinct (stored : Stored Value) (index : Nat) :
    ((shardPages stored index).map Prod.fst).Nodup := by
  have sorted : (shardPages stored index).Pairwise (fun left right => left.1 < right.1) :=
    (ascending stored).filter _
  exact pairwise_map.mpr (sorted.imp (fun below => Nat.ne_of_lt below))

theorem shardPages_first {image : StoredPage Value} (small : pageId < defaultPageCacheShards)
    (found : stored[pageId]? = some image) :
    ∃ rest, shardPages stored pageId = (pageId, image) :: rest := by
  have member : (pageId, image) ∈ shardPages stored pageId :=
    mem_filter.mpr ⟨TreeMap.mem_toList_iff_getElem?_eq_some.mpr found,
      decide_eq_true (Nat.mod_eq_of_lt small)⟩
  have sorted : (shardPages stored pageId).Pairwise (fun left right => left.1 < right.1) :=
    (ascending stored).filter _
  cases listed : shardPages stored pageId with
  | nil =>
    rw [listed] at member
    cases member
  | cons first rest =>
    rw [listed] at member sorted
    rcases mem_cons.mp member with same | later
    · exact ⟨rest, by rw [same]⟩
    · have below : first.1 < pageId := (pairwise_cons.mp sorted).1 _ later
      have here : first ∈ shardPages stored pageId := listed ▸ mem_cons_self
      have shard : first.1 % defaultPageCacheShards = pageId :=
        of_decide_eq_true (mem_filter.mp here).2
      rw [Nat.mod_eq_of_lt (below.trans small)] at shard
      exact absurd shard (Nat.ne_of_lt below)

/-- The shard of a page has room for all stored pages that fall into it. -/
def Fits (stored : Stored Value) (capacityPages : Nat) (pageId : PageId) : Prop :=
  (shardPages stored pageId).length ≤ PageCache.perShard defaultPageCacheShards capacityPages

instance fitsDecidable (stored : Stored Value) (capacityPages : Nat) (pageId : PageId) :
    Decidable (Fits stored capacityPages pageId) :=
  inferInstanceAs (Decidable (_ ≤ _))

/-- The scan keeps a page with a small id if and only if its shard has room for
all pages that fall into it. -/
theorem warm_get (small : pageId < defaultPageCacheShards) :
    ((warm stored capacityPages).get pageId).1 =
      if Fits stored capacityPages pageId then stored[pageId]? else none := by
  rw [PageCache.get_fst, warm_shard_of_small small, warm_shard stored capacityPages small,
    Option.bind_some]
  cases found : stored[pageId]? with
  | some image =>
    rcases shardPages_first small found with ⟨rest, listed⟩
    have distinct := shardPages_distinct stored pageId
    rw [listed] at distinct
    have length : (shardPages stored pageId).length = ((pageId, image) :: rest).length := by rw [listed]
    by_cases fits : Fits stored capacityPages pageId
    · rw [if_pos fits, listed]
      exact (Lru.peek_putAll_first distinct).trans (if_pos (length ▸ fits))
    · rw [if_neg fits, listed]
      exact (Lru.peek_putAll_first distinct).trans (if_neg (length ▸ fits))
  | none =>
    rw [ite_self]
    apply Lru.peek_putAll_missing (shardPages_distinct stored pageId)
    intro member
    rcases mem_map.mp member with ⟨_, listed, rfl⟩
    have isStored := TreeMap.mem_toList_iff_getElem?_eq_some.mp (mem_filter.mp listed).1
    rw [found] at isStored
    cases isStored

/-! ## The branch that is taken -/

/-- With rounds enough for the scan, the two meta pages decide. -/
theorem recoverOrInit_eq (bounded : ∀ entry ∈ stored.toList, entry.1 < 2 ^ 64 - 1)
    (enough : stored.toList.length < rounds) :
    recoverOrInit stored capacityPages rounds =
      match ((warm stored capacityPages).get metaPageId).1 with
      | some metaImage => some (recover metaImage ((warm stored capacityPages).get btreeMetaPageId).1)
      | none => some (.ok initialise) := by
  have scanned : warmupScanAll stored 256 rounds 0
      (.newWithCapacity defaultPageCacheShards capacityPages) = some (warm stored capacityPages) := by
    rw [warmupScanAll_eq bounded (by rw [remaining_zero]; exact enough), remaining_zero]
    rfl
  have apart : (warm stored capacityPages).shard metaPageId ≠
      (warm stored capacityPages).shard btreeMetaPageId := by
    rw [warm_shard_of_small (by decide), warm_shard_of_small (by decide)]
    decide
  unfold recoverOrInit
  rw [scanned, Option.bind_eq_bind, Option.bind_some, ← PageCache.get_other_shard _ apart]
  rcases (warm stored capacityPages).get metaPageId with ⟨image, _⟩
  cases image with
  | none => rfl
  | some => rfl

/-- The B-tree meta page, if the scan has kept it. -/
def keptBtreeMeta (stored : Stored Value) (capacityPages : Nat) : Option (StoredPage Value) :=
  if Fits stored capacityPages btreeMetaPageId then stored[btreeMetaPageId]? else none

/-- The tree is entered at the root page that storage names. -/
def EntersStoredRoot (stored : Stored Value) (content : GlobalMeta) (connected : Connected Value) : Prop :=
  (∀ rootPageId, stored[btreeMetaPageId]? = some (.btreeMeta rootPageId) ->
      connected.rootPageId = rootPageId) ∧
    (stored[btreeMetaPageId]? = none -> connected.rootPageId = content.rootPageId)

theorem recover_writes {btreeImage : Option (StoredPage Value)}
    (written : undoBase ≤ content.undo.nextUndoPageId)
    (recovered : recover (.globalMeta content) btreeImage = .ok connected) :
    connected.writes = [] := by
  have nothing : (if content.undo.nextUndoPageId < undoBase then
      [(metaPageId, StoredPage.globalMeta { content with undo := content.undo.raised })]
      else ([] : List (PageId × StoredPage Value))) = [] := if_neg (Nat.not_lt.mpr written)
  cases btreeImage with
  | none =>
    cases recovered
    exact nothing
  | some image =>
    cases image with
    | btreeMeta =>
      cases recovered
      exact nothing
    | globalMeta => cases recovered
    | tree => cases recovered
    | other => cases recovered

theorem recover_root {rootPageId : PageId}
    (recovered : recover (.globalMeta content) (some (.btreeMeta rootPageId)) = .ok connected) :
    connected.rootPageId = rootPageId := by
  cases recovered
  rfl

theorem recover_root_none (recovered : recover (.globalMeta content) none = .ok connected) :
    connected.rootPageId = content.rootPageId := by
  cases recovered
  rfl

/-- If no stored page has the largest id and the shard of the META page has room
for all stored pages that fall into it, a restart recovers the database: it
writes none of the pages of a new one.  It enters the tree at the stored root if
it has kept the B-tree meta page as well, or if the META page names the same
root. -/
theorem restart_recovers {stored : Stored Value} {capacityPages rounds : Nat} {content : GlobalMeta}
    (present : stored[metaPageId]? = some (.globalMeta content))
    (written : undoBase ≤ content.undo.nextUndoPageId)
    (bounded : ∀ entry ∈ stored.toList, entry.1 < 2 ^ 64 - 1)
    (metaFits : Fits stored capacityPages metaPageId) (enough : stored.toList.length < rounds) :
    recoverOrInit stored capacityPages rounds =
        some (recover (.globalMeta content) (keptBtreeMeta stored capacityPages)) ∧
      ∀ connected,
        recover (.globalMeta content) (keptBtreeMeta stored capacityPages) = .ok connected ->
        (∀ write ∈ connected.writes, write ∉ initialPages) ∧
          ((Fits stored capacityPages btreeMetaPageId ∨ ∀ rootPageId,
              stored[btreeMetaPageId]? = some (.btreeMeta rootPageId) -> content.rootPageId = rootPageId) ->
            EntersStoredRoot stored content connected) := by
  constructor
  · rw [recoverOrInit_eq bounded enough, warm_get (by decide), warm_get (by decide), if_pos metaFits,
      present]
    rfl
  · intro connected recovered
    constructor
    · rw [recover_writes written recovered]
      exact fun _ member => absurd member not_mem_nil
    · intro known
      unfold keptBtreeMeta at recovered
      by_cases fits : Fits stored capacityPages btreeMetaPageId
      · rw [if_pos fits] at recovered
        constructor
        · intro rootPageId found
          rw [found] at recovered
          exact recover_root recovered
        · intro missing
          rw [missing] at recovered
          exact recover_root_none recovered
      · rw [if_neg fits] at recovered
        refine ⟨?_, fun _ => recover_root_none recovered⟩
        intro rootPageId found
        rw [recover_root_none recovered]
        exact (known.resolve_left fits) rootPageId found

/-- A database of three tree pages with root page 12, in the smallest cache there is. -/
theorem restart_recovers_small_cache :
    let content : GlobalMeta :=
      { rootPageId := 10, nextBptreePageId := 13, nextDataPageId := 1000000, undo := .initial }
    let stored : Stored Nat := TreeMap.ofList
      [(0, .globalMeta content), (8, .btreeMeta 12), (10, .tree (.leaf (.new 0) [])),
        (11, .tree (.leaf (.new 0) [])), (12, .tree (.internal (.new 1) []))] compare
    recoverOrInit stored 1 6 = some (recover (.globalMeta content) (keptBtreeMeta stored 1)) ∧
      ∀ connected, recover (.globalMeta content) (keptBtreeMeta stored 1) = .ok connected ->
        (∀ write ∈ connected.writes, write ∉ initialPages) ∧
          ((Fits stored 1 btreeMetaPageId ∨ ∀ rootPageId,
              stored[btreeMetaPageId]? = some (.btreeMeta rootPageId) -> content.rootPageId = rootPageId) ->
            EntersStoredRoot stored content connected) := by
  intro content stored
  exact restart_recovers rfl (by decide) (by decide +kernel) (by decide +kernel) (by decide +kernel)

/-- Otherwise the META page is gone from the cache, and the restart writes the
pages of a new database. -/
theorem recoverOrInit_initialises
    (bounded : ∀ entry ∈ stored.toList, entry.1 < 2 ^ 64 - 1)
    (full : ¬Fits stored capacityPages metaPageId) (enough : stored.toList.length < rounds) :
    recoverOrInit stored capacityPages rounds = some (.ok initialise) := by
  rw [recoverOrInit_eq bounded enough, warm_get (by decide), if_neg full]

/-- The stored pages of a database that has outgrown the cache: as many pages as a
shard of the default cache has room for fall into the shard of the META page. -/
def outgrown : Stored Nat :=
  TreeMap.ofList
    ([(0, .globalMeta
        { rootPageId := 10, nextBptreePageId := 8193, nextDataPageId := 1000000, undo := .initial }),
      (8, .btreeMeta 12), (10, .tree (.leaf (.new 0) [(Key.ofNat 7, 70)]))] ++
      (List.range 128).map (fun index => (64 * (index + 1), .tree (.leaf (.new 0) [])))) compare

/-- With the default capacity, a restart replaces that database by a new one. -/
theorem restart_initialises_again :
    (∃ content, outgrown[metaPageId]? = some (.globalMeta content) ∧
      undoBase ≤ content.undo.nextUndoPageId) ∧
      ∃ connected, recoverOrInit outgrown defaultCapacityPages 1000 = some (.ok connected) ∧
        ∀ write ∈ initialPages, write ∈ connected.writes := by
  constructor
  · have written : (outgrown[metaPageId]?.any (fun image => match image with
        | .globalMeta content => decide (undoBase ≤ content.undo.nextUndoPageId)
        | _ => false)) = true := by
      decide +kernel
    rcases (Option.any_eq_true _ _).mp written with ⟨image, isStored, holds⟩
    cases image with
    | globalMeta content => exact ⟨content, isStored, of_decide_eq_true holds⟩
    | btreeMeta => cases holds
    | tree => cases holds
    | other => cases holds
  · refine ⟨initialise, ?_, fun write member => member⟩
    exact recoverOrInit_initialises (by decide +kernel) (by decide +kernel) (by decide +kernel)

end Restart

end Compute
end ScaleKv
