import Ava6.Expr.TermCanonize

/-! Renamings of bound variables, and terms up to permutations of the arguments of commutative
operators.
-/

namespace Ava6.Expr.Canonize

mutual

/-- The occurrences of bound variables. -/
def vars : Node → List Variable
  | .boundVar v => [v]
  | .symbol _ => []
  | .apply _ children => varsIn children
  | .parameterized op children => varsIn children ++ vars op

def varsIn : List Node → List Variable
  | [] => []
  | node :: rest => vars node ++ varsIn rest

end

mutual

/-- There are no bound variables in operator position. -/
def OperatorsClosed : Node → Prop
  | .boundVar _ | .symbol _ => True
  | .apply _ children => AllOperatorsClosed children
  | .parameterized op children => vars op = [] ∧ AllOperatorsClosed children

def AllOperatorsClosed : List Node → Prop
  | [] => True
  | node :: rest => OperatorsClosed node ∧ AllOperatorsClosed rest

end

mutual

theorem operatorsClosed_of_closed (n : Node) (closed : vars n = []) : OperatorsClosed n := by
  cases n with
  | boundVar v => simp [OperatorsClosed]
  | symbol s => simp [OperatorsClosed]
  | apply k children =>
      rw [OperatorsClosed]
      exact allOperatorsClosed_of_closed children (by rwa [vars] at closed)
  | parameterized op children =>
      rw [vars, List.append_eq_nil_iff] at closed
      rw [OperatorsClosed]
      exact ⟨closed.2, allOperatorsClosed_of_closed children closed.1⟩

theorem allOperatorsClosed_of_closed (nodes : List Node) (closed : varsIn nodes = [])
    : AllOperatorsClosed nodes := by
  cases nodes with
  | nil => simp [AllOperatorsClosed]
  | cons node rest =>
      rw [varsIn, List.append_eq_nil_iff] at closed
      rw [AllOperatorsClosed]
      exact ⟨operatorsClosed_of_closed node closed.1, allOperatorsClosed_of_closed rest closed.2⟩

end

mutual

def rename (σ : Variable → Variable) : Node → Node
  | .boundVar v => .boundVar (σ v)
  | .symbol s => .symbol s
  | .apply k children => .apply k (renames σ children)
  | .parameterized op children => .parameterized (rename σ op) (renames σ children)

def renames (σ : Variable → Variable) : List Node → List Node
  | [] => []
  | node :: rest => rename σ node :: renames σ rest

end

theorem renames_eq_map (σ : Variable → Variable) (nodes : List Node)
    : renames σ nodes = nodes.map (rename σ) := by
  induction nodes with
  | nil => rfl
  | cons node rest ih => rw [renames, ih, List.map_cons]

mutual

theorem rename_congr {σ τ : Variable → Variable} (n : Node) (same : ∀ v ∈ vars n, σ v = τ v)
    : rename σ n = rename τ n := by
  cases n with
  | boundVar v => rw [rename, rename, same v (by simp [vars])]
  | symbol s => rw [rename, rename]
  | apply k children =>
      rw [rename, rename, renames_congr children (fun v member => same v (by rwa [vars]))]
  | parameterized op children =>
      simp only [vars, List.mem_append] at same
      rw [rename, rename, renames_congr children (fun v member => same v (Or.inl member)),
        rename_congr op (fun v member => same v (Or.inr member))]

theorem renames_congr {σ τ : Variable → Variable} (nodes : List Node)
    (same : ∀ v ∈ varsIn nodes, σ v = τ v)
    : renames σ nodes = renames τ nodes := by
  cases nodes with
  | nil => rfl
  | cons node rest =>
      simp only [varsIn, List.mem_append] at same
      rw [renames, renames, rename_congr node (fun v member => same v (Or.inl member)),
        renames_congr rest (fun v member => same v (Or.inr member))]

end

mutual

theorem rename_id (n : Node) : rename id n = n := by
  cases n with
  | boundVar v => rw [rename, id]
  | symbol s => rw [rename]
  | apply k children => rw [rename, renames_id children]
  | parameterized op children => rw [rename, renames_id children, rename_id op]

theorem renames_id (nodes : List Node) : renames id nodes = nodes := by
  cases nodes with
  | nil => rfl
  | cons node rest => rw [renames, rename_id node, renames_id rest]

end

mutual

theorem rename_rename (σ τ : Variable → Variable) (n : Node)
    : rename σ (rename τ n) = rename (σ ∘ τ) n := by
  cases n with
  | boundVar v => simp [rename]
  | symbol s => simp [rename]
  | apply k children => simp only [rename, renames_renames σ τ children]
  | parameterized op children =>
      simp only [rename, renames_renames σ τ children, rename_rename σ τ op]

theorem renames_renames (σ τ : Variable → Variable) (nodes : List Node)
    : renames σ (renames τ nodes) = renames (σ ∘ τ) nodes := by
  cases nodes with
  | nil => rfl
  | cons node rest => simp only [renames, rename_rename σ τ node, renames_renames σ τ rest]

end

mutual

theorem vars_rename (σ : Variable → Variable) (n : Node) : vars (rename σ n) = (vars n).map σ := by
  cases n with
  | boundVar v => simp [rename, vars]
  | symbol s => simp [rename, vars]
  | apply k children => simp only [rename, vars, varsIn_renames σ children]
  | parameterized op children =>
      simp only [rename, vars, varsIn_renames σ children, vars_rename σ op, List.map_append]

theorem varsIn_renames (σ : Variable → Variable) (nodes : List Node)
    : varsIn (renames σ nodes) = (varsIn nodes).map σ := by
  cases nodes with
  | nil => rfl
  | cons node rest =>
      simp only [renames, varsIn, vars_rename σ node, varsIn_renames σ rest, List.map_append]

end

theorem rename_of_fixed {σ : Variable → Variable} {n : Node} (fixed : ∀ v ∈ vars n, σ v = v)
    : rename σ n = n :=
  (rename_congr n fixed).trans (rename_id n)

theorem rename_of_closed {σ : Variable → Variable} {n : Node} (closed : vars n = [])
    : rename σ n = n :=
  rename_of_fixed (by simp [closed])

/-- Equal up to permuting the arguments of commutative operators. -/
inductive Permuted : Node → Node → Prop
  | refl (n : Node) : Permuted n n
  | symm {a b : Node} (same : Permuted a b) : Permuted b a
  | trans {a b c : Node} (first : Permuted a b) (second : Permuted b c) : Permuted a c
  | perm {k : Kind} {front rest : List Node} (comm : isComm k = true) (perm : front.Perm rest)
    : Permuted (.apply k front) (.apply k rest)
  | child {k : Kind} {front rest : List Node} {a b : Node} (same : Permuted a b)
    : Permuted (.apply k (front ++ a :: rest)) (.apply k (front ++ b :: rest))
  | argument {op : Node} {front rest : List Node} {a b : Node} (same : Permuted a b)
    : Permuted (.parameterized op (front ++ a :: rest)) (.parameterized op (front ++ b :: rest))
  | operator {f g : Node} {children : List Node} (same : Permuted f g)
    : Permuted (.parameterized f children) (.parameterized g children)

/-- Whatever one child may be replaced by in a node, all of them may. -/
theorem permuted_of_forall₂ {make : List Node → Node}
    (one : ∀ front rest a b, Permuted a b → Permuted (make (front ++ a :: rest)) (make (front ++ b :: rest)))
    {as bs : List Node} (each : List.Forall₂ Permuted as bs)
    : Permuted (make as) (make bs) := by
  suffices every : ∀ front : List Node, Permuted (make (front ++ as)) (make (front ++ bs)) from every []
  induction each with
  | nil => exact fun front => .refl _
  | @cons a b as bs same _ ih =>
      intro front
      have rest := ih (front ++ [b])
      rw [List.append_assoc, List.append_assoc] at rest
      exact (one front as a b same).trans rest

theorem permuted_apply {k : Kind} {as bs : List Node} (each : List.Forall₂ Permuted as bs)
    : Permuted (.apply k as) (.apply k bs) :=
  permuted_of_forall₂ (fun _ _ _ _ same => .child same) each

theorem permuted_parameterized {f g : Node} {as bs : List Node} (operators : Permuted f g)
    (each : List.Forall₂ Permuted as bs)
    : Permuted (.parameterized f as) (.parameterized g bs) :=
  (permuted_of_forall₂ (fun _ _ _ _ same => .argument same) each).trans (.operator operators)

/-- Renaming keeps that arguments are permuted, by induction on how they are. -/
theorem Permuted.rename {a b : Node} (same : Permuted a b) (σ : Variable → Variable)
    : Permuted (rename σ a) (rename σ b) := by
  induction same with
  | refl n => exact .refl _
  | symm _ ih => exact ih.symm
  | trans _ _ ih ih' => exact ih.trans ih'
  | perm comm perm =>
      simp only [Canonize.rename, renames_eq_map]
      exact .perm comm (perm.map _)
  | child _ ih =>
      simp only [Canonize.rename, renames_eq_map, List.map_append, List.map_cons]
      exact .child ih
  | argument _ ih =>
      simp only [Canonize.rename, renames_eq_map, List.map_append, List.map_cons]
      exact .argument ih
  | operator _ ih =>
      simp only [Canonize.rename]
      exact .operator ih

theorem mem_varsIn {v : Variable} {nodes : List Node} : v ∈ varsIn nodes ↔ ∃ n ∈ nodes, v ∈ vars n := by
  induction nodes with
  | nil => simp [varsIn]
  | cons node rest ih => simp [varsIn, ih]

theorem Permuted.mem_vars {a b : Node} (same : Permuted a b) (v : Variable)
    : v ∈ vars a ↔ v ∈ vars b := by
  induction same with
  | refl n => exact Iff.rfl
  | symm _ ih => exact ih.symm
  | trans _ _ ih ih' => exact ih.trans ih'
  | perm comm perm => simp only [vars, mem_varsIn, perm.mem_iff]
  | child _ ih =>
      simp only [vars, mem_varsIn, List.mem_append, List.mem_cons, or_and_right, exists_or,
        exists_eq_left, ih]
  | argument _ ih =>
      simp only [vars, mem_varsIn, List.mem_append, List.mem_cons, or_and_right, exists_or,
        exists_eq_left, ih]
  | operator _ ih => simp only [vars, List.mem_append, ih]

end Ava6.Expr.Canonize
