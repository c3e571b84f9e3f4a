import Ava6.Expr.TermRenaming

/-! What a canonical term is: bound variables are renamed by the number of their first occurrence among
the variables of the same type and type class.
-/

namespace Ava6.Expr.Canonize

variable {c : Config} {ρ σ : Variable → Variable}

mutual

/-- The canonical term for given canonical variables. -/
def canonicalWith (c : Config) (ρ : Variable → Variable) : Node → Node
  | .boundVar v => .boundVar (ρ v)
  | .symbol s => .symbol s
  | .apply k children => .apply k (c.sortChildren k (canonicalsWith c ρ children))
  | .parameterized op children =>
      .parameterized (if c.doHoVar && !children.isEmpty then canonicalWith c ρ op else op)
        (canonicalsWith c ρ children)

def canonicalsWith (c : Config) (ρ : Variable → Variable) : List Node → List Node
  | [] => []
  | node :: rest => canonicalWith c ρ node :: canonicalsWith c ρ rest

end

mutual

theorem canonicalWith_congr (n : Node) (same : ∀ v ∈ vars n, ρ v = σ v)
    : canonicalWith c ρ n = canonicalWith c σ n := by
  cases n with
  | boundVar v => rw [canonicalWith, canonicalWith, same v (by simp [vars])]
  | symbol s => rw [canonicalWith, canonicalWith]
  | apply k children =>
      rw [canonicalWith, canonicalWith,
        canonicalsWith_congr children (fun v member => same v (by rwa [vars]))]
  | parameterized op children =>
      simp only [vars, List.mem_append] at same
      rw [canonicalWith, canonicalWith,
        canonicalsWith_congr children (fun v member => same v (Or.inl member)),
        canonicalWith_congr op (fun v member => same v (Or.inr member))]

theorem canonicalsWith_congr (nodes : List Node) (same : ∀ v ∈ varsIn nodes, ρ v = σ v)
    : canonicalsWith c ρ nodes = canonicalsWith c σ nodes := by
  cases nodes with
  | nil => rfl
  | cons node rest =>
      simp only [varsIn, List.mem_append] at same
      rw [canonicalsWith, canonicalsWith,
        canonicalWith_congr node (fun v member => same v (Or.inl member)),
        canonicalsWith_congr rest (fun v member => same v (Or.inr member))]

end

mutual

theorem canonicalWith_rename (n : Node) (closed : OperatorsClosed n)
    : canonicalWith c ρ (rename σ n) = canonicalWith c (ρ ∘ σ) n := by
  cases n with
  | boundVar v => simp [rename, canonicalWith]
  | symbol s => simp [rename, canonicalWith]
  | apply k children =>
      rw [OperatorsClosed] at closed
      rw [rename, canonicalWith, canonicalWith, canonicalsWith_renames children closed]
  | parameterized op children =>
      rw [OperatorsClosed] at closed
      have sameOperator : canonicalWith c ρ op = canonicalWith c (ρ ∘ σ) op :=
        canonicalWith_congr op (by simp [closed.1])
      have sameEmpty : (renames σ children).isEmpty = children.isEmpty := by
        rw [renames_eq_map, List.isEmpty_map]
      rw [rename, canonicalWith, canonicalWith, canonicalsWith_renames children closed.2,
        rename_of_closed closed.1, sameOperator, sameEmpty]

theorem canonicalsWith_renames (nodes : List Node) (closed : AllOperatorsClosed nodes)
    : canonicalsWith c ρ (renames σ nodes) = canonicalsWith c (ρ ∘ σ) nodes := by
  cases nodes with
  | nil => rfl
  | cons node rest =>
      rw [AllOperatorsClosed] at closed
      rw [renames, canonicalsWith, canonicalsWith, canonicalWith_rename node closed.1,
        canonicalsWith_renames rest closed.2]

end

theorem sortChildren_perm (k : Kind) (children : List Node)
    : (c.sortChildren k children).Perm children := by
  rw [Config.sortChildren]
  split
  · exact List.mergeSort_perm ..
  · exact List.Perm.refl _

theorem permuted_sortChildren (k : Kind) (children : List Node)
    : Permuted (.apply k (c.sortChildren k children)) (.apply k children) := by
  by_cases comm : isComm k = true
  · exact .perm comm (sortChildren_perm k children)
  · rw [Config.sortChildren, if_neg (by simp [comm])]
    exact .refl _

mutual

/-- A canonical term is a renaming up to permuted arguments. -/
theorem canonicalWith_permuted (n : Node) (closed : OperatorsClosed n)
    : Permuted (canonicalWith c ρ n) (rename ρ n) := by
  cases n with
  | boundVar v =>
      rw [canonicalWith, rename]
      exact .refl _
  | symbol s =>
      rw [canonicalWith, rename]
      exact .refl _
  | apply k children =>
      rw [OperatorsClosed] at closed
      rw [canonicalWith, rename]
      exact (permuted_sortChildren k _).trans (permuted_apply (canonicalsWith_permuted children closed))
  | parameterized op children =>
      rw [OperatorsClosed] at closed
      rw [canonicalWith, rename]
      refine permuted_parameterized ?_ (canonicalsWith_permuted children closed.2)
      split
      · exact canonicalWith_permuted op (operatorsClosed_of_closed op closed.1)
      · rw [rename_of_closed closed.1]
        exact .refl _

theorem canonicalsWith_permuted (nodes : List Node) (closed : AllOperatorsClosed nodes)
    : List.Forall₂ Permuted (canonicalsWith c ρ nodes) (renames ρ nodes) := by
  cases nodes with
  | nil => exact .nil
  | cons node rest =>
      rw [AllOperatorsClosed] at closed
      rw [canonicalsWith, renames]
      exact .cons (canonicalWith_permuted node closed.1) (canonicalsWith_permuted rest closed.2)

end

mutual

/-- Without sorting it is one exactly. -/
theorem canonicalWith_eq_rename (notSorted : c.applyTOrder = false) (n : Node)
    (closed : OperatorsClosed n)
    : canonicalWith c ρ n = rename ρ n := by
  cases n with
  | boundVar v => rw [canonicalWith, rename]
  | symbol s => rw [canonicalWith, rename]
  | apply k children =>
      rw [OperatorsClosed] at closed
      rw [canonicalWith, rename, canonicalsWith_eq_renames notSorted children closed,
        Config.sortChildren, notSorted]
      rfl
  | parameterized op children =>
      rw [OperatorsClosed] at closed
      rw [canonicalWith, rename, canonicalsWith_eq_renames notSorted children closed.2,
        canonicalWith_eq_rename notSorted op (operatorsClosed_of_closed op closed.1),
        rename_of_closed closed.1, ite_self]

theorem canonicalsWith_eq_renames (notSorted : c.applyTOrder = false) (nodes : List Node)
    (closed : AllOperatorsClosed nodes)
    : canonicalsWith c ρ nodes = renames ρ nodes := by
  cases nodes with
  | nil => rfl
  | cons node rest =>
      rw [AllOperatorsClosed] at closed
      rw [canonicalsWith, renames, canonicalWith_eq_rename notSorted node closed.1,
        canonicalsWith_eq_renames notSorted rest closed.2]

end

/-- The variables seen, in the order of their first occurrences. -/
def addVars (seen : List Variable) : List Variable → List Variable
  | [] => seen
  | v :: rest => addVars (if v ∈ seen then seen else seen ++ [v]) rest

theorem addVars_append (seen front rest : List Variable)
    : addVars seen (front ++ rest) = addVars (addVars seen front) rest := by
  induction front generalizing seen with
  | nil => rfl
  | cons v front ih => rw [List.cons_append, addVars, addVars, ih]

theorem addVars_spec (seen occurrences : List Variable) (nodup : seen.Nodup)
    : (addVars seen occurrences).Nodup ∧ seen <+: addVars seen occurrences
      ∧ ∀ v, v ∈ addVars seen occurrences ↔ v ∈ seen ∨ v ∈ occurrences := by
  induction occurrences generalizing seen with
  | nil => exact ⟨nodup, List.prefix_rfl, fun v => by simp [addVars]⟩
  | cons w rest ih =>
      rw [addVars]
      by_cases known : w ∈ seen
      · rw [if_pos known]
        obtain ⟨nodup', isPrefix, members⟩ := ih seen nodup
        refine ⟨nodup', isPrefix, fun v => ?_⟩
        rw [members, List.mem_cons]
        constructor
        · exact fun either => either.imp id Or.inr
        · rintro (old | rfl | later)
          · exact Or.inl old
          · exact Or.inl known
          · exact Or.inr later
      · rw [if_neg known]
        obtain ⟨nodup', isPrefix, members⟩ :=
          ih (seen ++ [w]) (nodup.append (List.nodup_singleton w) (by simpa using known))
        refine ⟨nodup', (List.prefix_append ..).trans isPrefix, fun v => ?_⟩
        rw [members, List.mem_append, List.mem_singleton, List.mem_cons, or_assoc]

variable {seen : List Variable}

theorem addVars_of_subset {occurrences : List Variable} (known : ∀ v ∈ occurrences, v ∈ seen)
    : addVars seen occurrences = seen := by
  induction occurrences with
  | nil => rfl
  | cons v rest ih =>
      obtain ⟨first, others⟩ := List.forall_mem_cons.mp known
      rw [addVars, if_pos first, ih others]

theorem addVars_map (seen occurrences : List Variable)
    (injective : ∀ v ∈ seen ++ occurrences, ∀ w ∈ seen ++ occurrences, σ v = σ w → v = w)
    : addVars (seen.map σ) (occurrences.map σ) = (addVars seen occurrences).map σ := by
  induction occurrences generalizing seen with
  | nil => rfl
  | cons v rest ih =>
      have sameKnown : σ v ∈ seen.map σ ↔ v ∈ seen := by
        rw [List.mem_map]
        constructor
        · rintro ⟨w, member, same⟩
          rw [← injective w (by simp [member]) v (by simp) same]
          exact member
        · exact fun member => ⟨v, member, rfl⟩
      rw [List.map_cons, addVars, addVars]
      by_cases known : v ∈ seen
      · rw [if_pos known, if_pos (sameKnown.mpr known)]
        refine ih seen (fun a left b right => injective a ?_ b ?_)
        · simp only [List.mem_append, List.mem_cons] at left ⊢
          tauto
        · simp only [List.mem_append, List.mem_cons] at right ⊢
          tauto
      · rw [if_neg known, if_neg (fun isKnown => known (sameKnown.mp isKnown))]
        have step := ih (seen ++ [v]) (by simpa using injective)
        rw [List.map_append, List.map_cons, List.map_nil] at step
        exact step

/-- The variables seen of a type and type class. -/
def ofKey (c : Config) (seen : List Variable) (key : Key) : List Variable :=
  seen.filter (fun v => decide (c.key v = key))

/-- The index of a variable among those of its type and type class. -/
def number (c : Config) (seen : List Variable) (v : Variable) : Nat :=
  (ofKey c seen (c.key v)).idxOf v

variable {v : Variable}

theorem mem_ofKey : v ∈ ofKey c seen (c.key v) ↔ v ∈ seen := by
  simp [ofKey]

theorem ofKey_append (front rest : List Variable) (key : Key)
    : ofKey c (front ++ rest) key = ofKey c front key ++ ofKey c rest key :=
  List.filter_append ..

theorem number_lt (member : v ∈ seen)
    : number c seen v < (ofKey c seen (c.key v)).length :=
  List.idxOf_lt_length_of_mem (mem_ofKey.mpr member)

/-- Numbers do not change when more variables are seen. -/
theorem number_of_prefix {more : List Variable} (isPrefix : seen <+: more)
    (member : v ∈ seen)
    : number c more v = number c seen v := by
  obtain ⟨rest, rfl⟩ := isPrefix
  rw [number, ofKey_append]
  exact List.idxOf_append_of_mem (mem_ofKey.mpr member)

theorem number_injective {w : Variable} (member : v ∈ seen)
    (sameKey : c.key v = c.key w) (same : number c seen v = number c seen w)
    : v = w := by
  rw [number, number, ← sameKey] at same
  exact (List.idxOf_inj (mem_ofKey.mpr member)).mp same

theorem idxOf_map_of_injOn
    (injective : ∀ w ∈ seen, σ w = σ v → w = v)
    : (seen.map σ).idxOf (σ v) = seen.idxOf v := by
  induction seen with
  | nil => rfl
  | cons w rest ih =>
      obtain ⟨first, others⟩ := List.forall_mem_cons.mp injective
      rw [List.map_cons, List.idxOf_cons, List.idxOf_cons, ih others]
      by_cases same : w = v
      · simp [same]
      · have notSame : σ w ≠ σ v := fun isSame => same (first isSame)
        rw [beq_eq_false_iff_ne.mpr notSame, beq_eq_false_iff_ne.mpr same]

/-- A renaming that keeps types and type classes keeps numbers. -/
theorem number_map (keepsKey : ∀ v ∈ seen, c.key (σ v) = c.key v)
    (injective : ∀ v ∈ seen, ∀ w ∈ seen, σ v = σ w → v = w) (member : v ∈ seen)
    : number c (seen.map σ) (σ v) = number c seen v := by
  have sameOfKey : ofKey c (seen.map σ) (c.key (σ v)) = (ofKey c seen (c.key v)).map σ := by
    rw [ofKey, ofKey, List.filter_map, keepsKey v member]
    refine congrArg (List.map σ) (List.filter_congr (fun w isSeen => ?_))
    rw [Function.comp_apply, keepsKey w isSeen]
  rw [number, number, sameOfKey]
  refine idxOf_map_of_injOn (fun w isOfKey same => ?_)
  exact injective w (List.mem_of_mem_filter isOfKey) v member same

end Ava6.Expr.Canonize
