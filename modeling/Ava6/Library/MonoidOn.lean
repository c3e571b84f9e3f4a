import Mathlib.Data.List.Perm.Basic
import Mathlib.Tactic

/-! Operations that are monoids on part of a type, and products of lists of that part. With the laws
of commutativity and idempotence, products do not depend on order and repetition.
-/

namespace Ava6.Library

structure MonoidOn (V : Type) where
  carrier : V → Prop
  op : V → V → V
  neutral : V
  neutral_mem : carrier neutral
  op_mem {x y : V} : carrier x → carrier y → carrier (op x y)
  op_assoc {x y z : V} : carrier x → carrier y → carrier z → op (op x y) z = op x (op y z)
  neutral_op {x : V} : carrier x → op neutral x = x
  op_neutral {x : V} : carrier x → op x neutral = x

namespace MonoidOn

variable {V : Type} (m : MonoidOn V)

def product (values : List V) : V := values.foldr m.op m.neutral

def Commutative : Prop := ∀ {x y : V}, m.carrier x → m.carrier y → m.op x y = m.op y x

def Idempotent : Prop := ∀ {x : V}, m.carrier x → m.op x x = x

/-- An element that absorbs all others. -/
structure IsZero (zero : V) : Prop where
  mem : m.carrier zero
  zero_op {x : V} : m.carrier x → m.op zero x = zero
  op_zero {x : V} : m.carrier x → m.op x zero = zero

/-- All values are in the carrier. -/
def All (values : List V) : Prop := ∀ x ∈ values, m.carrier x

variable {m} {values others : List V} {x : V}

@[simp]
theorem product_cons (x : V) (values : List V)
    : m.product (x :: values) = m.op x (m.product values) := rfl

theorem product_mem (all : m.All values) : m.carrier (m.product values) := by
  induction values with
  | nil => exact m.neutral_mem
  | cons x values ih =>
      obtain ⟨first, rest⟩ := List.forall_mem_cons.mp all
      exact m.op_mem first (ih rest)

theorem product_append (all : m.All values) (allOthers : m.All others)
    : m.product (values ++ others) = m.op (m.product values) (m.product others) := by
  induction values with
  | nil => exact (m.neutral_op (product_mem allOthers)).symm
  | cons x values ih =>
      obtain ⟨first, rest⟩ := List.forall_mem_cons.mp all
      rw [List.cons_append, product_cons, ih rest, product_cons,
        m.op_assoc first (product_mem rest) (product_mem allOthers)]

theorem product_singleton (mem : m.carrier x) : m.product [x] = x := m.op_neutral mem

/-- Order does not matter. -/
theorem product_perm (comm : m.Commutative) (perm : values.Perm others) (all : m.All values)
    : m.product values = m.product others := by
  induction perm with
  | nil => rfl
  | cons x _ ih =>
      rw [product_cons, product_cons, ih (List.forall_mem_cons.mp all).2]
  | swap x y rest =>
      obtain ⟨second, allRest⟩ := List.forall_mem_cons.mp all
      obtain ⟨first, allRest⟩ := List.forall_mem_cons.mp allRest
      have memRest := product_mem allRest
      rw [product_cons, product_cons, product_cons, product_cons, ← m.op_assoc second first memRest,
        ← m.op_assoc first second memRest, comm second first]
  | trans first _ ihFirst ihSecond =>
      rw [ihFirst all, ihSecond (fun x member => all x (first.mem_iff.mpr member))]

/-- What is there already may be left out. -/
theorem op_product_of_mem (comm : m.Commutative) (idem : m.Idempotent) (member : x ∈ values)
    (all : m.All values)
    : m.op x (m.product values) = m.product values := by
  induction values with
  | nil => cases member
  | cons y values ih =>
      obtain ⟨first, rest⟩ := List.forall_mem_cons.mp all
      have memRest := product_mem rest
      rw [product_cons]
      rcases List.mem_cons.mp member with rfl | later
      · rw [← m.op_assoc first first memRest, idem first]
      · have memX := rest x later
        rw [← m.op_assoc memX first memRest, comm memX first, m.op_assoc first memX memRest, ih later rest]

/-- Neither order nor repetition matters. -/
theorem product_congr (comm : m.Commutative) (idem : m.Idempotent) (all : m.All values)
    (same : ∀ x, x ∈ values ↔ x ∈ others)
    : m.product values = m.product others := by
  have allOthers : m.All others := fun x member => all x ((same x).mpr member)
  have absorb (front back : List V) (allBack : m.All back) (inside : ∀ x ∈ front, x ∈ back)
      : m.op (m.product front) (m.product back) = m.product back := by
    induction front with
    | nil => exact m.neutral_op (product_mem allBack)
    | cons x front ih =>
        obtain ⟨first, rest⟩ := List.forall_mem_cons.mp inside
        have allFront : m.All front := fun y member => allBack y (rest y member)
        rw [product_cons, m.op_assoc (allBack x first) (product_mem allFront) (product_mem allBack),
          ih rest, op_product_of_mem comm idem first allBack]
  rw [← absorb others values all (fun x member => (same x).mpr member),
    comm (product_mem allOthers) (product_mem all),
    absorb values others allOthers (fun x member => (same x).mp member)]

theorem product_of_zero_mem {zero : V} (isZero : m.IsZero zero) (member : zero ∈ values)
    (all : m.All values)
    : m.product values = zero := by
  induction values with
  | nil => cases member
  | cons x values ih =>
      obtain ⟨first, rest⟩ := List.forall_mem_cons.mp all
      rw [product_cons]
      rcases List.mem_cons.mp member with rfl | later
      · exact isZero.zero_op (product_mem rest)
      · rw [ih later rest]
        exact isZero.op_zero first

end MonoidOn

end Ava6.Library
