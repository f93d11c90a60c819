import ScaleKv.Compute.Restart

namespace ScaleKv
namespace Compute

open Foundation List OrderedMap

/-!
# Pages of a transaction in progress

`TxnPageProvider` puts a page that a transaction writes into the shared page
cache and into the dirty map of the transaction.  It reads from the cache and
then from storage, and never from the dirty map.  So a page that was driven out
of the cache before the commit is read as storage has it.  That cannot happen to
a page as long as the pages of its shard that the transaction touches fit there.
-/

namespace PageCache

variable {Image : Type} {cache : PageCache Image} {count : Nat} {working : List PageId}
  {id used : PageId} {image : Image} {written after : Option Image}

theorem get_cases (cache : PageCache Image) (used : PageId) :
    cache.get used = (none, cache) ∨
      ∃ image, cache.get used = (some image, cache.insert used image) := by
  simp only [get, insert, modify_eq_set_getElem?]
  cases found : cache.shards[cache.shard used]? with
  | none => exact .inl rfl
  | some shard =>
    rcases List.getElem?_eq_some_iff.mp found with ⟨bound, rfl⟩
    cases peeked : cache.shards[cache.shard used].peek used with
    | none => simp [Lru.get, peeked]
    | some image => simp [Lru.get, peeked]

/-- The shard of the page has room for the working set, and keeps what was
written to the page. -/
structure Holds (cache : PageCache Image) (count : Nat) (working : List PageId) (id : PageId)
    (written : Option Image) : Prop where
  length : cache.shards.length = count
  keeps : ∃ shard, cache.shards[id % count]? = some shard ∧ working.length ≤ shard.capacity ∧
    ∀ page, written = some page -> shard.Keeps working id page

theorem Holds.get_eq (holds : cache.Holds count working id (some image)) :
    (cache.get id).1 = some image := by
  rcases holds.keeps with ⟨shard, found, _, keeps⟩
  rw [get_fst, PageCache.shard, holds.length, found]
  exact Lru.peek_of_mem (keeps image rfl).mem

theorem Holds.insert (holds : cache.Holds count working id written)
    (covered : used % count = id % count -> used ∈ working)
    (isAfter : ∀ page, after = some page ->
      used = id ∧ image = page ∨ used ≠ id ∧ written = some page) :
    (cache.insert used image).Holds count working id after := by
  rcases holds with ⟨rfl, shard, found, fits, keeps⟩
  refine ⟨length_modify .., ?_⟩
  simp only [PageCache.insert, getElem?_modify, found, PageCache.shard]
  by_cases here : used % cache.shards.length = id % cache.shards.length
  · refine ⟨shard.put used image, by simp [here], fits, ?_⟩
    intro page isPage
    rcases isAfter page isPage with ⟨rfl, rfl⟩ | ⟨other, wasPage⟩
    · exact shard.keeps_put image (covered here)
    · exact (keeps page wasPage).put fits (covered here) other
  · refine ⟨shard, by simp [here], fits, ?_⟩
    intro page isPage
    rcases isAfter page isPage with ⟨rfl, _⟩ | ⟨_, wasPage⟩
    · exact absurd rfl here
    · exact keeps page wasPage

end PageCache

/-- A call of a transaction to its page provider.  A read has the page that the
fetcher finds in storage if the cache misses. -/
inductive ProviderCall (Value : Type)
  | readPage (id : PageId) (fetched : Option (StoredPage Value))
  | writePage (id : PageId) (page : StoredPage Value)
  | setRootPageId (id : PageId)

open StoredPage

def ProviderCall.target {Value : Type} : ProviderCall Value -> PageId
  | .readPage id _ => id
  | .writePage id _ => id
  | .setRootPageId _ => btreeMetaPageId

/-- `TxnPageProvider`, with the dirty map of the transaction that calls it, which
has the last page written to every id. -/
structure TxnPageProvider (Value : Type) where
  pages : PageCache (StoredPage Value)
  root : PageId
  dirty : Std.TreeMap PageId (StoredPage Value)

namespace TxnPageProvider

variable {Value : Type}

def readPage (provider : TxnPageProvider Value) (id : PageId)
    (fetched : Option (StoredPage Value)) : Option (StoredPage Value) × TxnPageProvider Value :=
  match provider.pages.get id with
  | (some page, pages) => (some page, { provider with pages })
  | (none, pages) =>
    match fetched with
    | none => (none, { provider with pages })
    | some page => (some page, { provider with pages := pages.insert id page })

def writePage (provider : TxnPageProvider Value) (id : PageId) (page : StoredPage Value) :
    TxnPageProvider Value :=
  { provider with
    pages := provider.pages.insert id page
    dirty := provider.dirty.insert id page }

def setRootPageId (provider : TxnPageProvider Value) (id : PageId) : TxnPageProvider Value :=
  { provider.writePage btreeMetaPageId (.btreeMeta id) with root := id }

def call (provider : TxnPageProvider Value) : ProviderCall Value -> TxnPageProvider Value
  | .readPage id fetched => (provider.readPage id fetched).2
  | .writePage id page => provider.writePage id page
  | .setRootPageId id => provider.setRootPageId id

def run (provider : TxnPageProvider Value) (calls : List (ProviderCall Value)) :
    TxnPageProvider Value :=
  calls.foldl call provider

/-- A provider at the start of a transaction. -/
def start (shards capacityPages : Nat) (root : PageId) : TxnPageProvider Value :=
  ⟨.newWithCapacity shards capacityPages, root, ∅⟩

variable {provider : TxnPageProvider Value} {count : Nat} {working : List PageId} {id : PageId}

theorem holds_call (step : ProviderCall Value)
    (holds : provider.pages.Holds count working id provider.dirty[id]?)
    (covered : step.target % count = id % count -> step.target ∈ working) :
    (provider.call step).pages.Holds count working id (provider.call step).dirty[id]? := by
  have writes used page (covered : used % count = id % count -> used ∈ working) :
      (provider.writePage used page).pages.Holds count working id
        (provider.writePage used page).dirty[id]? := by
    refine holds.insert covered ?_
    intro found isFound
    rcases lookup_insert_cases isFound with ⟨rfl, rfl⟩ | ⟨different, before⟩
    · exact .inl ⟨rfl, rfl⟩
    · exact .inr ⟨different.symm, before⟩
  cases step with
  | readPage used fetched =>
    -- A page of the transaction that is read is found in the cache.
    simp only [call, readPage]
    rcases provider.pages.get_cases used with missed | ⟨image, hit⟩
    · rw [missed]
      cases fetched with
      | none => exact holds
      | some page =>
        refine holds.insert covered ?_
        intro found isFound
        refine .inr ⟨?_, isFound⟩
        rintro rfl
        rw [isFound] at holds
        cases (congrArg Prod.fst missed).symm.trans holds.get_eq
    · rw [hit]
      refine holds.insert covered ?_
      intro found isFound
      by_cases same : used = id
      · subst same
        rw [isFound] at holds
        exact .inl ⟨rfl, Option.some.inj ((congrArg Prod.fst hit).symm.trans holds.get_eq)⟩
      · exact .inr ⟨same, isFound⟩
  | writePage used page => exact writes used page covered
  | setRootPageId root => exact writes btreeMetaPageId (.btreeMeta root) covered

/-- A page that the transaction has written is read back if the pages that it
touches in the shard of the page fit there. -/
theorem readPage_written {shard : Lru PageId (StoredPage Value)} {page : StoredPage Value}
    (calls : List (ProviderCall Value)) (fetched : Option (StoredPage Value))
    (fresh : provider.dirty = ∅)
    (found : provider.pages.shards[provider.pages.shard id]? = some shard)
    (covered : ∀ step ∈ calls,
      provider.pages.shard step.target = provider.pages.shard id -> step.target ∈ working)
    (fits : working.length ≤ shard.capacity)
    (written : (provider.run calls).dirty[id]? = some page) :
    ((provider.run calls).readPage id fetched).1 = some page := by
  have holds : (provider.run calls).pages.Holds provider.pages.shards.length working id
      (provider.run calls).dirty[id]? := by
    clear written
    induction calls using reverseRecOn with
    | nil => exact ⟨rfl, shard, found, fits, by simp [run, fresh]⟩
    | append_singleton earlier last ih =>
      rw [forall_mem_append, forall_mem_singleton] at covered
      simpa only [run, foldl_concat] using holds_call last (ih covered.1) covered.2
  rw [written] at holds
  rcases (provider.run calls).pages.get_cases id with missed | ⟨image, hit⟩
  · cases (congrArg Prod.fst missed).symm.trans holds.get_eq
  · rw [readPage, hit]
    exact (congrArg Prod.fst hit).symm.trans holds.get_eq

/-- Two pages of one shard, which has room for both. -/
theorem readPage_two_pages :
    (((start 2 4 10 : TxnPageProvider Unit).run
      [.writePage 11 (.btreeMeta 1), .writePage 13 (.btreeMeta 2)]).readPage 11 none).1 =
        some (.btreeMeta 1) :=
  @readPage_written Unit _ [11, 13] 11 (.empty 2 Nat.two_pos) _ _ _ rfl rfl (by decide) le_rfl
    rfl

/-- The cache has room for one page: the second write drives the first page out,
and storage does not have it. -/
theorem readPage_forgets :
    ¬ ∀ (shards capacityPages : Nat) (root id : PageId) (calls : List (ProviderCall Unit))
      (fetched : Option (StoredPage Unit)) (page : StoredPage Unit),
      ((start shards capacityPages root).run calls).dirty[id]? = some page ->
        (((start shards capacityPages root).run calls).readPage id fetched).1 = some page := by
  intro remembers
  have read := remembers 1 1 10 11 [.writePage 11 (.btreeMeta 1), .writePage 12 (.btreeMeta 2)] none
    (.btreeMeta 1) rfl
  cases read

end TxnPageProvider

end Compute
end ScaleKv
