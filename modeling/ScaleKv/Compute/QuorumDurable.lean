import ScaleKv.Compute.Sequencer
import Mathlib.Order.Bounds.Basic

namespace ScaleKv
namespace Compute

open List

/-!
# The quorum-durable log sequence number

Three places sort the LSNs of some nodes in descending order and take the one
at `quorum - 1`: the quorum client over all its nodes, the sequencer over the
nodes it reaches when it connects, and a commit over the nodes that acknowledge
it.  The value is the greatest LSN that a quorum of these nodes reports.
-/

/-- The LSNs that at least `quorum` of the nodes have reached. -/
def reachedBy (lsns : List Nat) (quorum : Nat) : Set Nat :=
  { lsn | quorum ≤ lsns.countP (fun reported => lsn ≤ reported) }

/-! ## The order statistic -/

/-- The element behind `front` in a descending list is the greatest number that
`front.length + 1` elements reach. -/
theorem isGreatest_of_sorted {front rest : List Nat} {lsn : Nat}
    (sorted : (front ++ lsn :: rest).Pairwise (fun left right => right ≤ left)) :
    IsGreatest (reachedBy (front ++ lsn :: rest) (front.length + 1)) lsn := by
  rcases pairwise_append.mp sorted with ⟨_, behind, ahead⟩
  have above : ∀ reported ∈ front, lsn ≤ reported :=
    fun reported member => ahead reported member lsn mem_cons_self
  have below : ∀ reported ∈ rest, reported ≤ lsn := (pairwise_cons.mp behind).1
  constructor
  · have counted : front.countP (fun reported => lsn ≤ reported) = front.length :=
      countP_eq_length.mpr (fun reported member => decide_eq_true (above reported member))
    show front.length + 1 ≤ (front ++ lsn :: rest).countP _
    rw [countP_append, countP_cons_of_pos (by simp), counted]
    omega
  · intro bound reached
    by_contra exceeds
    have larger : lsn < bound := lt_of_not_ge exceeds
    -- Only the front can reach a larger number, and it is one short.
    have uncounted : rest.countP (fun reported => bound ≤ reported) = 0 :=
      countP_eq_zero.mpr (fun reported member isAbove =>
        absurd ((of_decide_eq_true isAbove).trans (below reported member)) exceeds)
    have few : front.countP (fun reported => bound ≤ reported) ≤ front.length := countP_le_length
    change front.length + 1 ≤ (front ++ lsn :: rest).countP _ at reached
    rw [countP_append, countP_cons_of_neg (by simpa using larger), uncounted] at reached
    omega

theorem isGreatest_descending {lsns : List Nat} {quorum : Nat} (positive : 0 < quorum)
    (within : quorum ≤ lsns.length) :
    IsGreatest (reachedBy lsns quorum) (((descending lsns)[quorum - 1]?).getD 0) := by
  have sorting : descending lsns ~ lsns := perm_insertionSort _ _
  have inside : quorum - 1 < (descending lsns).length := by
    rw [sorting.length_eq]
    omega
  have same : reachedBy (descending lsns) quorum = reachedBy lsns quorum := by
    simp only [reachedBy, sorting.countP_eq]
  have cut : (descending lsns).take (quorum - 1) ++
      (descending lsns)[quorum - 1] :: (descending lsns).drop (quorum - 1 + 1) = descending lsns := by
    rw [← drop_eq_getElem_cons inside, take_append_drop]
  have sorted : (descending lsns).Pairwise (fun left right => right ≤ left) :=
    pairwise_insertionSort _ _
  have front : ((descending lsns).take (quorum - 1)).length + 1 = quorum := by
    rw [length_take_of_le inside.le]
    omega
  rw [← cut] at sorted
  have greatest := isGreatest_of_sorted sorted
  rw [front, cut, same] at greatest
  rwa [getElem?_eq_getElem inside, Option.getD_some]

/-! ## The quorum client -/

/-- `StorageQuorumClient`: the connected clients, of any type, and a quorum that
they can make. -/
structure StorageQuorumClient (Client : Type) where
  clients : List Client
  quorum : Nat
  positive : 0 < quorum
  enough : quorum ≤ clients.length

namespace StorageQuorumClient

variable {Client : Type}

/-- `StorageQuorumClient::connect`; beside each address stands what became of
the connection. -/
def connect (addrs : List (String × Except String Client)) (quorum : Nat) :
    Except Error (StorageQuorumClient Client) :=
  if nonempty : addrs.length = 0 then .error (.invalidValueSize 0 1)
  else
    let required := min (max quorum 1) addrs.length
    let clients := addrs.filterMap (fun addr => addr.2.toOption)
    let errs := addrs.filterMap (fun addr =>
      match addr.2 with
      | .ok _ => none
      | .error message => some s!"{addr.1}: {message}")
    let joined := " | ".intercalate errs
    if short : clients.length < required then
      .error (.io .other
        s!"not enough reachable storage nodes: reachable={clients.length} required={required} (errors: {joined})")
    else .ok ⟨clients, required, by omega, Nat.le_of_not_lt short⟩

/-- `quorum_durable_lsn`; `answer` is what `get_durable_lsn` returns. -/
def quorumDurableLsn (client : StorageQuorumClient Client) (answer : Client -> Except Error Nat) :
    Except Error Nat := do
  let lsns <- client.clients.mapM answer
  return ((descending lsns)[client.quorum - 1]?).getD 0

end StorageQuorumClient

/-! ## The three uses -/

/-- For every list of LSNs and every quorum that it can make the sorted list has
the greatest LSN of a quorum at `quorum - 1`.  This is what the quorum client
returns when all its nodes answer, where the sequencer starts after it has asked
the nodes it reaches, and what a commit raises the durable counter to. -/
theorem quorum_durable_lsn_isGreatest {Client : Type} :
    (∀ (lsns : List Nat) (quorum : Nat), 0 < quorum -> quorum ≤ lsns.length ->
      IsGreatest (reachedBy lsns quorum) (((descending lsns)[quorum - 1]?).getD 0)) ∧
    (∀ (client : StorageQuorumClient Client) answer lsns, client.clients.mapM answer = .ok lsns ->
      ∃ durable, client.quorumDurableLsn answer = .ok durable ∧
        IsGreatest (reachedBy lsns client.quorum) durable) ∧
    (∀ (addrs : List Endpoint) (quorum seed : Nat) (sequencer : Sequencer),
      Sequencer.connect addrs quorum seed = .ok sequencer ->
      ∃ lsns, (addrs.filterMap (fun addr => addr.2.toOption)).mapM (fun answer => answer) = .ok lsns ∧
        IsGreatest (reachedBy lsns sequencer.quorum) sequencer.durableLsn) ∧
    (∀ (sequencer : Sequencer) (endLsn : Nat) (results : List (Except String (Nat × Nat))),
      0 < sequencer.quorum -> sequencer.quorum ≤ (Sequencer.acksOf endLsn results).length ->
      ∃ durable, IsGreatest (reachedBy (Sequencer.acksOf endLsn results) sequencer.quorum) durable ∧
        (sequencer.finish endLsn results).2.durableLsn = max sequencer.durableLsn durable) := by
  refine ⟨fun _ _ => isGreatest_descending, ?_, ?_, ?_⟩
  · intro client answer lsns answered
    refine ⟨_, ?_, isGreatest_descending client.positive ?_⟩
    · rw [StorageQuorumClient.quorumDurableLsn, answered]
      rfl
    · rw [length_of_mapM answered]
      exact client.enough
  · intro addrs quorum seed sequencer isConnected
    rcases Sequencer.connect_eq_ok isConnected with ⟨lsns, asked, positive, within, durable, _⟩
    refine ⟨lsns, asked, ?_⟩
    rw [durable]
    exact isGreatest_descending positive within
  · intro sequencer endLsn results positive within
    refine ⟨_, isGreatest_descending positive within, ?_⟩
    unfold Sequencer.finish
    dsimp only
    rw [if_neg (not_lt_of_ge within)]

/-- Of three nodes at 5, 9 and 3 two have reached 5. -/
theorem quorum_durable_lsn_of_three_nodes : IsGreatest (reachedBy [5, 9, 3] 2) 5 ∧
    ∃ durable, IsGreatest (reachedBy [5, 9] 2) durable ∧
      ((⟨2, 5, 1, 4, 4⟩ : Sequencer).finish 5 [.ok (5, 5), .ok (9, 9), .ok (3, 3)]).2.durableLsn =
        max 4 durable :=
  have holds := @quorum_durable_lsn_isGreatest Nat
  ⟨holds.1 [5, 9, 3] 2 (by decide) (by decide),
    holds.2.2.2 ⟨2, 5, 1, 4, 4⟩ 5 [.ok (5, 5), .ok (9, 9), .ok (3, 3)] (by decide) (by decide)⟩

end Compute
end ScaleKv
