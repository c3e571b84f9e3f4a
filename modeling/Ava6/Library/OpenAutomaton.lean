import Mathlib.Computability.Language

/-! Automata under construction: a fragment is a set of states with an entry and with arrows that have no target yet.
Its language is what is read on the ways from the entry over one of its arrows. Tying arrows to states composes the
languages of fragments.
-/

namespace Ava6.Library.OpenAutomaton

open Computability

variable {S L α : Type}

/-- Arrows without a label read nothing. -/
def Consumes (reads : L → α → Prop) : Option L → List α → Prop
  | none, w => w = []
  | some l, w => ∃ a, w = [a] ∧ reads l a

abbrev Edges (S L : Type) := S → Option L → S → Prop

inductive Path (reads : L → α → Prop) (edge : Edges S L) : S → List α → S → Prop
  | nil (q : S) : Path reads edge q [] q
  | step {p q r : S} {l : Option L} {u v : List α} (isEdge : edge p l q) (consumes : Consumes reads l u)
    (path : Path reads edge q v r) : Path reads edge p (u ++ v) r

structure Fragment (S L : Type) where
  states : Set S
  entry : S
  arrows : List (S × Option L)

/-- The edges from a state of the fragment stay inside, and the arrows start inside. -/
structure Fragment.Closed (F : Fragment S L) (edge : Edges S L) : Prop where
  entry_mem : F.entry ∈ F.states
  arrow_mem : ∀ a ∈ F.arrows, a.1 ∈ F.states
  edge_mem : ∀ {p l q}, p ∈ F.states → edge p l q → q ∈ F.states

/-- What is read from a state on over one of the arrows. -/
def leaving (reads : L → α → Prop) (edge : Edges S L) (arrows : List (S × Option L)) (p : S) : Language α :=
  {w | ∃ a ∈ arrows, ∃ u v, Path reads edge p u a.1 ∧ Consumes reads a.2 v ∧ u ++ v = w}

def Fragment.language (F : Fragment S L) (reads : L → α → Prop) (edge : Edges S L) : Language α :=
  leaving reads edge F.arrows F.entry

variable {reads : L → α → Prop} {edge edge' : Edges S L} {F G : Fragment S L} {p q r t z : S} {u v w : List α}

theorem Path.trans (first : Path reads edge p u q) (second : Path reads edge q v r) : Path reads edge p (u ++ v) r := by
  induction first with
  | nil q => exact second
  | step isEdge consumes _ ih =>
      rw [List.append_assoc]
      exact .step isEdge consumes (ih second)

/-- A path to another state starts with a step. -/
theorem Path.exists_step (path : Path reads edge p w r) (different : r ≠ p)
    : ∃ l q u v, edge p l q ∧ Consumes reads l u ∧ Path reads edge q v r ∧ u ++ v = w := by
  cases path with
  | nil => exact absurd rfl different
  | @step _ q _ l u v isEdge consumes path => exact ⟨l, q, u, v, isEdge, consumes, path, rfl⟩

theorem leaving_step {arrows : List (S × Option L)} {l : Option L} (isEdge : edge p l q) (consumes : Consumes reads l u)
    (leaves : v ∈ leaving reads edge arrows q)
    : u ++ v ∈ leaving reads edge arrows p := by
  obtain ⟨a, isArrow, v', v'', path, consumes', rfl⟩ := leaves
  exact ⟨a, isArrow, u ++ v', v'', .step isEdge consumes path, consumes', List.append_assoc ..⟩

theorem leaving_arrow {arrows : List (S × Option L)} {l : Option L} (isArrow : (p, l) ∈ arrows)
    (consumes : Consumes reads l u)
    : u ∈ leaving reads edge arrows p :=
  ⟨(p, l), isArrow, [], u, .nil p, consumes, rfl⟩

/-- Paths from a fragment stay inside. -/
theorem Fragment.Closed.path_mem (closed : F.Closed edge) (member : p ∈ F.states) (path : Path reads edge p w q)
    : q ∈ F.states := by
  induction path with
  | nil q => exact member
  | step isEdge _ _ ih => exact ih (closed.edge_mem member isEdge)

/-- Paths inside a fragment are paths where its states have the same edges. -/
theorem Fragment.Closed.path_of_agree (closed : F.Closed edge) (agree : ∀ p ∈ F.states, ∀ l q, edge p l q → edge' p l q)
    (member : p ∈ F.states) (path : Path reads edge p w q)
    : Path reads edge' p w q := by
  induction path with
  | nil q => exact .nil q
  | step isEdge consumes _ ih => exact .step (agree _ member _ _ isEdge) consumes (ih (closed.edge_mem member isEdge))

theorem Fragment.Closed.of_agree (closed : F.Closed edge) (agree : ∀ p ∈ F.states, ∀ l q, edge' p l q ↔ edge p l q)
    : F.Closed edge' :=
  ⟨closed.entry_mem, closed.arrow_mem, fun member isEdge => closed.edge_mem member ((agree _ member _ _).mp isEdge)⟩

theorem Fragment.Closed.leaving_congr (closed : F.Closed edge) (agree : ∀ p ∈ F.states, ∀ l q, edge' p l q ↔ edge p l q)
    (arrows : List (S × Option L)) (member : p ∈ F.states)
    : leaving reads edge' arrows p = leaving reads edge arrows p := by
  ext w
  constructor
  · rintro ⟨a, isArrow, u, v, path, consumes, rfl⟩
    have path' := (closed.of_agree agree).path_of_agree (fun p inside l q => (agree p inside l q).mp) member path
    exact ⟨a, isArrow, u, v, path', consumes, rfl⟩
  · rintro ⟨a, isArrow, u, v, path, consumes, rfl⟩
    have path' := closed.path_of_agree (fun p inside l q => (agree p inside l q).mpr) member path
    exact ⟨a, isArrow, u, v, path', consumes, rfl⟩

theorem Fragment.Closed.language_congr (closed : F.Closed edge)
    (agree : ∀ p ∈ F.states, ∀ l q, edge' p l q ↔ edge p l q)
    : F.language reads edge' = F.language reads edge :=
  closed.leaving_congr agree F.arrows closed.entry_mem

/-- The edges from the fragment's states are the old ones and the arrows, now with a target. -/
def Fragment.TiedTo (F : Fragment S L) (edge edge' : Edges S L) (t : S) : Prop :=
  ∀ p ∈ F.states, ∀ l q, edge' p l q ↔ edge p l q ∨ (p, l) ∈ F.arrows ∧ q = t

/-- A path out of a fragment leaves it over an arrow. -/
theorem Fragment.Closed.path_out_iff (closed : F.Closed edge) (tied : F.TiedTo edge edge' t) (member : p ∈ F.states)
    (outside : z ∉ F.states)
    : Path reads edge' p w z ↔ ∃ u ∈ leaving reads edge F.arrows p, ∃ v, Path reads edge' t v z ∧ u ++ v = w := by
  constructor
  · intro path
    induction path with
    | nil q => exact absurd member outside
    | @step p q r l u v isEdge consumes path ih =>
        rcases (tied p member l q).mp isEdge with inside | ⟨isArrow, rfl⟩
        · obtain ⟨v', leaves, v'', path', rfl⟩ := ih (closed.edge_mem member inside) outside
          exact ⟨u ++ v', leaving_step inside consumes leaves, v'', path', List.append_assoc ..⟩
        · exact ⟨u, leaving_arrow isArrow consumes, v, path, rfl⟩
  · rintro ⟨u, ⟨a, isArrow, u', u'', path, consumes, rfl⟩, v, path', rfl⟩
    have isEdge : edge' a.1 a.2 t := (tied _ (closed.arrow_mem a isArrow) _ _).mpr (Or.inr ⟨isArrow, rfl⟩)
    have inside := closed.path_of_agree (fun p inF l q isOld => (tied p inF l q).mpr (Or.inl isOld)) member path
    rw [List.append_assoc]
    exact inside.trans (.step isEdge consumes path')

/-- Where nothing leads on from the target, the paths to it read the language of the fragment. -/
theorem Fragment.Closed.path_target_iff (closed : F.Closed edge) (tied : F.TiedTo edge edge' t) (outside : t ∉ F.states)
    (final : ∀ l q, ¬edge' t l q)
    : Path reads edge' F.entry w t ↔ w ∈ F.language reads edge := by
  rw [closed.path_out_iff tied closed.entry_mem outside]
  constructor
  · rintro ⟨u, leaves, v, path, rfl⟩
    cases path with
    | nil => exact (List.append_nil u).symm ▸ leaves
    | step isEdge => exact absurd isEdge (final _ _)
  · intro leaves
    exact ⟨w, leaves, [], .nil t, List.append_nil w⟩

/-- One fragment after the other. -/
def Fragment.seq (F G : Fragment S L) : Fragment S L := ⟨F.states ∪ G.states, F.entry, G.arrows⟩

section Seq

variable (closedF : F.Closed edge) (closedG : G.Closed edge) (disjoint : ∀ p ∈ F.states, p ∉ G.states)
  (tied : F.TiedTo edge edge' G.entry) (agree : ∀ p ∈ G.states, ∀ l q, edge' p l q ↔ edge p l q)

include closedF closedG tied agree

theorem Fragment.Closed.seq : (F.seq G).Closed edge' where
  entry_mem := Or.inl closedF.entry_mem
  arrow_mem a isArrow := Or.inr (closedG.arrow_mem a isArrow)
  edge_mem := by
    rintro p l q (inF | inG) isEdge
    · rcases (tied p inF l q).mp isEdge with inside | ⟨-, rfl⟩
      · exact Or.inl (closedF.edge_mem inF inside)
      · exact Or.inr closedG.entry_mem
    · exact Or.inr (closedG.edge_mem inG ((agree p inG l q).mp isEdge))

include disjoint

theorem language_seq : (F.seq G).language reads edge' = F.language reads edge * G.language reads edge := by
  rw [← closedG.language_congr agree]
  ext w
  rw [Language.mem_mul]
  constructor
  · rintro ⟨a, isArrow, u, v, path, consumes, rfl⟩
    have outside : a.1 ∉ F.states := fun inF => disjoint _ inF (closedG.arrow_mem a isArrow)
    obtain ⟨u', leaves, u'', path', rfl⟩ := (closedF.path_out_iff tied closedF.entry_mem outside).mp path
    exact ⟨u', leaves, u'' ++ v, ⟨a, isArrow, u'', v, path', consumes, rfl⟩, (List.append_assoc ..).symm⟩
  · rintro ⟨u, leaves, _, ⟨a, isArrow, u', v, path, consumes, rfl⟩, rfl⟩
    have outside : a.1 ∉ F.states := fun inF => disjoint _ inF (closedG.arrow_mem a isArrow)
    have path' := (closedF.path_out_iff tied closedF.entry_mem outside).mpr ⟨u, leaves, u', path, rfl⟩
    exact ⟨a, isArrow, u ++ u', v, path', consumes, List.append_assoc ..⟩

end Seq

/-- A choice of fragments under construction: from the entry, arrows without a label lead to the fragments so far. -/
structure Fragment.Choice (F : Fragment S L) (edge : Edges S L) : Prop where
  entry_mem : F.entry ∈ F.states
  arrow_mem : ∀ a ∈ F.arrows, a.1 ∈ F.states ∧ a.1 ≠ F.entry
  edge_mem : ∀ {p l q}, p ∈ F.states → edge p l q → q ∈ F.states ∧ q ≠ F.entry

/-- One more fragment to choose. -/
def Fragment.add (F G : Fragment S L) : Fragment S L := ⟨F.states ∪ G.states, F.entry, F.arrows ++ G.arrows⟩

theorem Fragment.Choice.closed (choice : F.Choice edge) : F.Closed edge :=
  ⟨choice.entry_mem, fun a isArrow => (choice.arrow_mem a isArrow).1, fun inF isEdge => (choice.edge_mem inF isEdge).1⟩

section Choice

variable (choice : F.Choice edge) (closed : G.Closed edge) (disjoint : ∀ p ∈ F.states, p ∉ G.states)
  (entryEdges : ∀ l q, edge' F.entry l q ↔ edge F.entry l q ∨ l = none ∧ q = G.entry)
  (agree : ∀ p ∈ F.states ∪ G.states, p ≠ F.entry → ∀ l q, edge' p l q ↔ edge p l q)

include choice

include closed disjoint entryEdges agree

theorem Fragment.Choice.add : (F.add G).Choice edge' where
  entry_mem := Or.inl choice.entry_mem
  arrow_mem a isArrow := by
    rcases List.mem_append.mp isArrow with old | new
    · exact (choice.arrow_mem a old).imp Or.inl id
    · have inG := closed.arrow_mem a new
      exact ⟨Or.inr inG, fun isEntry => disjoint _ choice.entry_mem (isEntry ▸ inG)⟩
  edge_mem := by
    intro p l q inUnion isEdge
    have outside (inG : q ∈ G.states) : q ≠ F.entry := fun isEntry => disjoint _ choice.entry_mem (isEntry ▸ inG)
    by_cases isEntry : p = F.entry
    · rw [isEntry] at isEdge
      rcases (entryEdges l q).mp isEdge with old | ⟨-, rfl⟩
      · exact (choice.edge_mem choice.entry_mem old).imp Or.inl id
      · exact ⟨Or.inr closed.entry_mem, outside closed.entry_mem⟩
    · have old := (agree p inUnion isEntry l q).mp isEdge
      rcases inUnion with inF | inG
      · exact (choice.edge_mem inF old).imp Or.inl id
      · have target := closed.edge_mem inG old
        exact ⟨Or.inr target, outside target⟩

omit entryEdges in
/-- Paths from the second fragment stay there. -/
theorem path_added (inG : p ∈ G.states) (path : Path reads edge' p w q) : q ∈ G.states ∧ Path reads edge p w q := by
  have notEntry {p : S} (inG : p ∈ G.states) : p ≠ F.entry :=
    fun isEntry => disjoint _ choice.entry_mem (isEntry ▸ inG)
  have closed' : G.Closed edge' := closed.of_agree (fun p inG => agree p (Or.inr inG) (notEntry inG))
  refine ⟨closed'.path_mem inG path, closed'.path_of_agree (fun p inG l q isEdge => ?_) inG path⟩
  exact (agree p (Or.inr inG) (notEntry inG) l q).mp isEdge

omit closed disjoint entryEdges in
/-- Paths from the first fragment past its entry stay there. -/
theorem path_chosen (inF : p ∈ F.states) (notEntry : p ≠ F.entry) (path : Path reads edge' p w q)
    : q ∈ F.states ∧ Path reads edge p w q := by
  induction path with
  | nil q => exact ⟨inF, .nil q⟩
  | @step p q r l u v isEdge consumes path ih =>
      have old := (agree p (Or.inl inF) notEntry l q).mp isEdge
      obtain ⟨inF', path'⟩ := ih (choice.edge_mem inF old).1 (choice.edge_mem inF old).2
      exact ⟨inF', .step old consumes path'⟩

theorem language_add : (F.add G).language reads edge' = F.language reads edge + G.language reads edge := by
  have stillEdge : ∀ p ∈ F.states, ∀ l q, edge p l q → edge' p l q := by
    intro p inF l q isEdge
    by_cases isEntry : p = F.entry
    · rw [isEntry] at isEdge ⊢
      exact (entryEdges l q).mpr (Or.inl isEdge)
    · exact (agree p (Or.inl inF) isEntry l q).mpr isEdge
  ext w
  rw [Language.mem_add]
  constructor
  · rintro ⟨a, isArrow, u, v, path, consumes, rfl⟩
    change Path reads edge' F.entry u a.1 at path
    rcases List.mem_append.mp isArrow with old | new
    · obtain ⟨inF, notEntry⟩ := choice.arrow_mem a old
      left
      obtain ⟨l, q, u, u', isEdge, consumes', rest, rfl⟩ := path.exists_step notEntry
      rcases (entryEdges l q).mp isEdge with oldEdge | ⟨-, rfl⟩
      · obtain ⟨inF', notEntry'⟩ := choice.edge_mem choice.entry_mem oldEdge
        obtain ⟨-, path'⟩ := path_chosen choice agree inF' notEntry' rest
        exact ⟨a, old, u ++ u', v, .step oldEdge consumes' path', consumes, rfl⟩
      · have inG := (path_added choice closed disjoint agree closed.entry_mem rest).1
        exact absurd inG (disjoint _ inF)
    · have inG := closed.arrow_mem a new
      right
      have notEntry : a.1 ≠ F.entry := fun isEntry => disjoint _ choice.entry_mem (isEntry ▸ inG)
      obtain ⟨l, q, u, u', isEdge, consumes', rest, rfl⟩ := path.exists_step notEntry
      rcases (entryEdges l q).mp isEdge with oldEdge | ⟨rfl, rfl⟩
      · obtain ⟨inF', notEntry'⟩ := choice.edge_mem choice.entry_mem oldEdge
        have inF := (path_chosen choice agree inF' notEntry' rest).1
        exact absurd inG (disjoint _ inF)
      · obtain ⟨-, path'⟩ := path_added choice closed disjoint agree closed.entry_mem rest
        cases consumes'
        exact ⟨a, new, u', v, path', consumes, rfl⟩
  · rintro (⟨a, isArrow, u, v, path, consumes, rfl⟩ | ⟨a, isArrow, u, v, path, consumes, rfl⟩)
    · have path' := choice.closed.path_of_agree stillEdge choice.entry_mem path
      exact ⟨a, List.mem_append_left _ isArrow, u, v, path', consumes, rfl⟩
    · have notEntry {p : S} (inG : p ∈ G.states) : p ≠ F.entry :=
        fun isEntry => disjoint _ choice.entry_mem (isEntry ▸ inG)
      have path' : Path reads edge' _ _ _ := closed.path_of_agree
        (fun p inG l q isEdge => (agree p (Or.inr inG) (notEntry inG) l q).mpr isEdge) closed.entry_mem path
      have isEdge : edge' F.entry none G.entry := (entryEdges _ _).mpr (Or.inr ⟨rfl, rfl⟩)
      exact ⟨a, List.mem_append_right _ isArrow, u, v, .step isEdge (u := []) rfl path', consumes, rfl⟩

end Choice

/-- A loop over a fragment, from a new state that can also be left without reading. -/
def Fragment.loop (F : Fragment S L) (s : S) : Fragment S L := ⟨insert s F.states, s, [(s, none)]⟩

section Loop

variable {s : S} (closed : F.Closed edge) (new : s ∉ F.states) (tied : F.TiedTo edge edge' s)
  (enters : ∀ l q, edge' s l q ↔ l = none ∧ q = F.entry)

include closed tied enters

theorem Fragment.Closed.loop : (F.loop s).Closed edge' where
  entry_mem := Set.mem_insert s _
  arrow_mem a isArrow := by
    rw [List.mem_singleton.mp isArrow]
    exact Set.mem_insert s _
  edge_mem := by
    rintro p l q (rfl | inF) isEdge
    · rw [((enters l q).mp isEdge).2]
      exact Set.mem_insert_of_mem _ closed.entry_mem
    · rcases (tied p inF l q).mp isEdge with inside | ⟨-, rfl⟩
      · exact Set.mem_insert_of_mem _ (closed.edge_mem inF inside)
      · exact Set.mem_insert _ _

include new

/-- A path back to the loop's state goes some times through the fragment. -/
theorem path_back (path : Path reads edge' p w s)
    : (p = s → w ∈ (F.language reads edge)∗)
      ∧ (p ∈ F.states → w ∈ leaving reads edge F.arrows p * (F.language reads edge)∗) := by
  generalize isTarget : s = z at path
  induction path with
  | nil q =>
      subst isTarget
      exact ⟨fun _ => Language.nil_mem_kstar _, fun inF => absurd inF new⟩
  | @step p q r l u v isEdge consumes path ih =>
      subst isTarget
      obtain ⟨fromLoop, fromInside⟩ := ih rfl
      constructor
      · rintro rfl
        obtain ⟨rfl, rfl⟩ := (enters l q).mp isEdge
        cases consumes
        rw [← Language.one_add_self_mul_kstar_eq_kstar, Language.mem_add]
        exact Or.inr (fromInside closed.entry_mem)
      · intro inF
        rw [Language.mem_mul]
        rcases (tied p inF l q).mp isEdge with inside | ⟨isArrow, rfl⟩
        · obtain ⟨v', leaves, v'', inStar, rfl⟩ := Language.mem_mul.mp (fromInside (closed.edge_mem inF inside))
          exact ⟨u ++ v', leaving_step inside consumes leaves, v'', inStar, List.append_assoc ..⟩
        · exact ⟨u, leaving_arrow isArrow consumes, v, fromLoop rfl, rfl⟩

theorem path_of_pieces {pieces : List (List α)} (each : ∀ u ∈ pieces, u ∈ F.language reads edge)
    : Path reads edge' s pieces.flatten s := by
  induction pieces with
  | nil => exact .nil s
  | cons u rest ih =>
      have around : Path reads edge' F.entry u s :=
        (closed.path_out_iff tied closed.entry_mem new).mpr ⟨u, each u (by simp), [], .nil s, List.append_nil u⟩
      have once : Path reads edge' s u s := .step ((enters _ _).mpr ⟨rfl, rfl⟩) (u := []) rfl around
      exact once.trans (ih (fun v inRest => each v (by simp [inRest])))

theorem language_loop : (F.loop s).language reads edge' = (F.language reads edge)∗ := by
  ext w
  constructor
  · rintro ⟨a, isArrow, u, v, path, consumes, rfl⟩
    cases List.mem_singleton.mp isArrow
    cases consumes
    rw [List.append_nil]
    exact (path_back closed new tied enters path).1 rfl
  · rw [Language.mem_kstar]
    rintro ⟨pieces, rfl, each⟩
    exact ⟨(s, none), by simp [Fragment.loop], _, [], path_of_pieces closed new tied enters each, rfl, List.append_nil _⟩

end Loop

/-- The first characters lead to some state. -/
theorem Path.exists_prefix (path : Path reads edge p w r) (x y : List α) (isAppend : w = x ++ y)
    : ∃ q, Path reads edge p x q := by
  induction path generalizing x with
  | nil q =>
      obtain ⟨rfl, rfl⟩ := List.append_eq_nil_iff.mp isAppend.symm
      exact ⟨q, .nil q⟩
  | @step p q r l u v isEdge consumes path ih =>
      match l with
      | none =>
          cases consumes
          obtain ⟨q', before⟩ := ih x isAppend
          exact ⟨q', .step isEdge (u := []) rfl before⟩
      | some l =>
          obtain ⟨a, rfl, isRead⟩ := consumes
          match x with
          | [] => exact ⟨p, .nil p⟩
          | b :: x =>
              simp only [List.cons_append, List.nil_append, List.cons.injEq] at isAppend
              obtain ⟨rfl, isRest⟩ := isAppend
              obtain ⟨q', before⟩ := ih x isRest
              exact ⟨q', .step isEdge (u := [a]) ⟨a, rfl, isRead⟩ before⟩

/-- Reading one character more: an edge that reads it, between paths. -/
theorem path_append_singleton_iff {c : α}
    : Path reads edge p (w ++ [c]) r
      ↔ ∃ q l q', Path reads edge p w q ∧ edge q (some l) q' ∧ reads l c ∧ Path reads edge q' [] r := by
  constructor
  · intro path
    generalize isWord : w ++ [c] = x at path
    induction path generalizing w with
    | nil q => exact absurd isWord (by simp)
    | @step p q r l u v isEdge consumes path ih =>
        match l with
        | none =>
            cases consumes
            obtain ⟨q', l', q'', before, isEdge', reads', after⟩ := ih isWord
            exact ⟨q', l', q'', .step isEdge (u := []) rfl before, isEdge', reads', after⟩
        | some l =>
            obtain ⟨a, rfl, isRead⟩ := consumes
            match w with
            | [] =>
                simp only [List.nil_append, List.cons_append, List.cons.injEq] at isWord
                obtain ⟨rfl, rfl⟩ := isWord
                exact ⟨p, l, q, .nil p, isEdge, isRead, path⟩
            | b :: w =>
                simp only [List.cons_append, List.nil_append, List.cons.injEq] at isWord
                obtain ⟨rfl, rfl⟩ := isWord
                obtain ⟨q', l', q'', before, isEdge', reads', after⟩ := ih rfl
                exact ⟨q', l', q'', .step isEdge (u := [b]) ⟨b, rfl, isRead⟩ before, isEdge', reads', after⟩
  · rintro ⟨q, l, q', before, isEdge, isRead, after⟩
    exact before.trans (.step isEdge (u := [c]) (v := []) ⟨c, rfl, isRead⟩ after)

end Ava6.Library.OpenAutomaton
