import Mathlib.Data.List.Basic
import Mathlib.Logic.Equiv.List
import Mathlib.Tactic.DeriveEncodable

/-! Trees are numbered by the number of what is at the root and the list of the numbers of the children. -/

namespace Ava6.Library

variable {α β : Type*} {f : α → β} {xs ys : List α}

/-- Lists with the same images are the same, by induction on the list, if the function is injective on its elements:
what is known of the children of a node where the numbers of trees are shown to be different.
-/
theorem eq_of_map_eq (injective : ∀ x ∈ xs, ∀ y, f x = f y → x = y) (same : xs.map f = ys.map f) : xs = ys := by
  induction xs generalizing ys with
  | nil => exact (List.map_eq_nil_iff.mp same.symm).symm
  | cons x rest ih =>
      obtain ⟨y, rest', rfl, head, tail⟩ := List.map_eq_cons_iff.mp same.symm
      obtain ⟨first, later⟩ := List.forall_mem_cons.mp injective
      rw [first y head.symm, ih later tail.symm]

/-- Numbers of trees from that of the root and those of the children. -/
def treeNumber (root : Nat) (children : List Nat) : Nat := Nat.pair root (Encodable.encode children)

theorem treeNumber_inj {root root' : Nat} {children children' : List Nat}
    : treeNumber root children = treeNumber root' children' ↔ root = root' ∧ children = children' := by
  rw [treeNumber, treeNumber, Nat.pair_eq_pair, Encodable.encode_inj]

end Ava6.Library
