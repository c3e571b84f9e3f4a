import Mathlib.Data.Fintype.Card
import Mathlib.Tactic

/-! Derivations by rules with finitely many premises, and depth-first search for them that fails on
everything it is in the middle of. A failure of the search is relative to what is in progress; from
nothing in progress it is exact, since derivations of least height never repeat a conclusion.
-/

namespace Ava6.Library.Derivation

variable {α : Type} (rules : α → List (List α))

inductive Derivable : α → Prop
  | of_rule {a : α} {premises : List α} (isRule : premises ∈ rules a)
    (derivable : ∀ b ∈ premises, Derivable b) : Derivable a

/-- Derivable with less than so many rules in a row. -/
def Within : Nat → α → Prop
  | 0, _ => False
  | n + 1, a => ∃ premises ∈ rules a, ∀ b ∈ premises, Within n b

variable {rules} {a : α} {n m : Nat}

theorem Within.mono (within : Within rules n a) (le : n ≤ m) : Within rules m a := by
  induction n generalizing a m with
  | zero => exact within.elim
  | succ n ih =>
      obtain ⟨m, rfl⟩ := Nat.exists_eq_add_of_le' le
      obtain ⟨premises, isRule, below⟩ := within
      exact ⟨premises, isRule, fun b member => ih (below b member) (Nat.le_add_left ..)⟩

theorem exists_common_bound {premises : List α} (each : ∀ b ∈ premises, ∃ n, Within rules n b)
    : ∃ n, ∀ b ∈ premises, Within rules n b := by
  induction premises with
  | nil => exact ⟨0, by simp⟩
  | cons b rest ih =>
      obtain ⟨⟨n, first⟩, others⟩ := List.forall_mem_cons.mp each
      obtain ⟨m, below⟩ := ih others
      refine ⟨max n m, List.forall_mem_cons.mpr ⟨first.mono (le_max_left ..), ?_⟩⟩
      exact fun c member => (below c member).mono (le_max_right ..)

theorem derivable_iff_within : Derivable rules a ↔ ∃ n, Within rules n a := by
  constructor
  · intro derivable
    induction derivable with
    | @of_rule a premises isRule _ ih =>
        obtain ⟨n, below⟩ := exists_common_bound ih
        exact ⟨n + 1, premises, isRule, below⟩
  · rintro ⟨n, within⟩
    induction n generalizing a with
    | zero => exact within.elim
    | succ n ih =>
        obtain ⟨premises, isRule, below⟩ := within
        exact .of_rule isRule (fun b member => ih (below b member))

variable (rules) in
/-- The least height of a derivation. -/
noncomputable def rank (a : α) : Nat := sInf { n | Within rules n a }

/-- The last rule of a derivation of least height has premises of smaller rank. -/
theorem Derivable.exists_rule (derivable : Derivable rules a)
    : ∃ premises ∈ rules a, ∀ b ∈ premises, Derivable rules b ∧ rank rules b < rank rules a := by
  have least : Within rules (rank rules a) a := Nat.sInf_mem (derivable_iff_within.mp derivable)
  cases isRank : rank rules a with
  | zero =>
      rw [isRank] at least
      exact least.elim
  | succ n =>
      rw [isRank] at least
      obtain ⟨premises, isRule, below⟩ := least
      refine ⟨premises, isRule, fun b member => ⟨derivable_iff_within.mpr ⟨n, below b member⟩, ?_⟩⟩
      exact Nat.lt_succ_of_le (Nat.sInf_le (below b member))

/-- Nothing in progress has a derivation as short as the shortest of a goal. -/
def Clear (rules : α → List (List α)) (processing : List α) (a : α) : Prop :=
  ∀ p ∈ processing, rank rules a < rank rules p

theorem Clear.not_mem {processing : List α} (clear : Clear rules processing a)
    : a ∉ processing :=
  fun member => Nat.lt_irrefl _ (clear a member)

theorem Clear.push {processing : List α} {b : α} (clear : Clear rules processing a)
    (lower : rank rules b < rank rules a)
    : Clear rules (processing ++ [a]) b := by
  intro p member
  rcases List.mem_append.mp member with before | last
  · exact Nat.lt_trans lower (clear p before)
  · rw [List.mem_singleton.mp last]
    exact lower

theorem clear_nil (a : α) : Clear rules [] a := nofun

/-- What is left to be put in progress. -/
def remaining [Fintype α] [DecidableEq α] (processing : List α) : Nat := Fintype.card α - processing.toFinset.card

theorem remaining_push [Fintype α] [DecidableEq α] {processing : List α} (fresh : a ∉ processing)
    : remaining (processing ++ [a]) < remaining processing := by
  have isFresh : a ∉ processing.toFinset := by simpa using fresh
  have pushed : (processing ++ [a]).toFinset = insert a processing.toFinset := by
    ext b
    simp
  have bound : (insert a processing.toFinset).card ≤ Fintype.card α := Finset.card_le_univ _
  rw [remaining, remaining, pushed]
  rw [Finset.card_insert_of_notMem isFresh] at bound ⊢
  omega

def search [Fintype α] [DecidableEq α] (rules : α → List (List α)) (processing : List α) (a : α)
    : Bool :=
  if a ∈ processing then false
  else (rules a).any (fun premises => premises.all (search rules (processing ++ [a])))
termination_by remaining processing
decreasing_by exact remaining_push (by assumption)

variable [Fintype α] [DecidableEq α]

theorem derivable_of_search {processing : List α} (found : search rules processing a = true)
    : Derivable rules a := by
  fun_induction search rules processing a with
  | case1 processing a inProgress => cases found
  | case2 processing a fresh ih =>
      rw [List.any_eq_true] at found
      obtain ⟨premises, isRule, all⟩ := found
      exact .of_rule isRule (fun b member => ih b (List.all_eq_true.mp all b member))

theorem search_of_derivable {processing : List α} (derivable : Derivable rules a)
    (clear : Clear rules processing a)
    : search rules processing a = true := by
  fun_induction search rules processing a with
  | case1 processing a inProgress => exact absurd inProgress clear.not_mem
  | case2 processing a fresh ih =>
      obtain ⟨premises, isRule, lower⟩ := derivable.exists_rule
      refine List.any_eq_true.mpr ⟨premises, isRule, List.all_eq_true.mpr (fun b member => ?_)⟩
      exact ih b (lower b member).1 (clear.push (lower b member).2)

/-- From nothing in progress the search is exact. -/
theorem search_nil_iff : search rules [] a = true ↔ Derivable rules a :=
  ⟨derivable_of_search, fun derivable => search_of_derivable derivable (clear_nil a)⟩

end Ava6.Library.Derivation
