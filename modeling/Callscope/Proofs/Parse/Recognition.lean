import Callscope.Proofs.Parse.Coverage

/-!
# Recognizing trees

Whether a tree follows the grammar is found out by trying: for each node, what can be left of the
children after each item of the right-hand side. Every loop takes at most as many rounds as there are
children. What is recognized so is derived. In the same way a tree is checked for nodes that begin at
their first token. So a tree that is written down over the tokens of a line is seen to be read from it.
-/

namespace Callscope

/-! ## Words -/

namespace Item

variable {u v w : List Symbol}

/-- What is left after a first symbol of some sort. -/
def cutFirst (p : Symbol → Bool) : List Symbol → List (List Symbol)
  | [] => []
  | s :: w => if p s then [w] else []

/-- What can be left after at most `n` rounds. -/
def cutRounds (round : List Symbol → List (List Symbol)) : Nat → List Symbol → List (List Symbol)
  | 0, w => [w]
  | n + 1, w => w :: (round w).flatMap (cutRounds round n)

mutual

/-- What can be left after a word of an item. -/
def cuts : Item → List Symbol → List (List Symbol)
  | terminal _ k _, w => cutFirst (· == .token k) w
  | terminalOf _ ks _, w => cutFirst (fun s => ks.any fun k => s == .token k) w
  | call _ r _ _, w => cutFirst (· == .phrase r) w
  | branch _ alts, w => cutsAlts alts w
  | loop _ body, w => cutRounds (cutsAll body) w.length w
  | loopOnce _ body, w => (cutsAll body w).flatMap (cutRounds (cutsAll body) w.length)
  | climb .., w => [w]

def cutsAll : List Item → List Symbol → List (List Symbol)
  | [], w => [w]
  | i :: is, w => (cuts i w).flatMap (cutsAll is)

def cutsAlts : List (List Item) → List Symbol → List (List Symbol)
  | [], _ => []
  | a :: as, w => cutsAll a w ++ cutsAlts as w

end

theorem of_mem_cutFirst {p : Symbol → Bool} (h : v ∈ cutFirst p w) :
    ∃ s, p s = true ∧ w = s :: v := by
  unfold cutFirst at h
  split at h
  · cases h
  · rename_i s w
    split at h
    · rename_i hs
      rw [List.mem_singleton.mp h]
      exact ⟨s, hs, rfl⟩
    · cases h

theorem spells_of_mem_cutRounds {round : List Symbol → List (List Symbol)} {body : List Item}
    {s n : Nat} (hround : ∀ {w v}, v ∈ round w → ∃ u, w = u ++ v ∧ SpellsAll body u)
    (h : v ∈ cutRounds round n w) : ∃ u, w = u ++ v ∧ Spells (loop s body) u := by
  induction n generalizing w with
  | zero => exact ⟨[], (List.mem_singleton.mp h).symm, spells_loop_nil⟩
  | succ n ih =>
    rcases List.mem_cons.mp h with rfl | h
    · exact ⟨[], rfl, spells_loop_nil⟩
    · obtain ⟨w', hw', hrest⟩ := List.mem_flatMap.mp h
      obtain ⟨u, rfl, hu⟩ := hround hw'
      obtain ⟨u', rfl, hu'⟩ := ih hrest
      exact ⟨u ++ u', (List.append_assoc ..).symm, spells_loop_cons hu hu'⟩

mutual

theorem spells_of_mem_cuts (i : Item) {w v : List Symbol} (h : v ∈ cuts i w) :
    ∃ u, w = u ++ v ∧ Spells i u := by
  cases i with
  | terminal s k l =>
    obtain ⟨x, hx, rfl⟩ := of_mem_cutFirst h
    exact ⟨[x], rfl, by rw [Spells, eq_of_beq hx]⟩
  | terminalOf s ks l =>
    obtain ⟨x, hx, rfl⟩ := of_mem_cutFirst h
    obtain ⟨k, hk, hx⟩ := List.any_eq_true.mp hx
    exact ⟨[x], rfl, by rw [Spells, eq_of_beq hx]; exact ⟨k, hk, rfl⟩⟩
  | call s r l label =>
    obtain ⟨x, hx, rfl⟩ := of_mem_cutFirst h
    exact ⟨[x], rfl, by rw [Spells, eq_of_beq hx]⟩
  | branch s alts =>
    rw [cuts] at h
    obtain ⟨u, hw, hu⟩ := spells_of_mem_cutsAlts alts h
    exact ⟨u, hw, by rw [Spells]; exact hu⟩
  | loop s body =>
    rw [cuts] at h
    exact spells_of_mem_cutRounds (spells_of_mem_cutsAll body) h
  | loopOnce s body =>
    rw [cuts] at h
    obtain ⟨w', hw', hrest⟩ := List.mem_flatMap.mp h
    obtain ⟨u, rfl, hu⟩ := spells_of_mem_cutsAll body hw'
    obtain ⟨u', rfl, hu'⟩ := spells_of_mem_cutRounds (s := s) (spells_of_mem_cutsAll body) hrest
    exact ⟨u ++ u', (List.append_assoc ..).symm, spells_loopOnce_cons hu hu'⟩
  | climb s ops => exact ⟨[], (List.mem_singleton.mp h).symm, by rw [Spells]⟩

theorem spells_of_mem_cutsAll (is : List Item) {w v : List Symbol} (h : v ∈ cutsAll is w) :
    ∃ u, w = u ++ v ∧ SpellsAll is u := by
  cases is with
  | nil => exact ⟨[], (List.mem_singleton.mp h).symm, spellsAll_nil.mpr rfl⟩
  | cons i is =>
    rw [cutsAll] at h
    obtain ⟨w', hw', hrest⟩ := List.mem_flatMap.mp h
    obtain ⟨u, rfl, hu⟩ := spells_of_mem_cuts i hw'
    obtain ⟨u', rfl, hu'⟩ := spells_of_mem_cutsAll is hrest
    exact ⟨u ++ u', (List.append_assoc ..).symm, spellsAll_cons.mpr ⟨u, u', rfl, hu, hu'⟩⟩

theorem spells_of_mem_cutsAlts (as : List (List Item)) {w v : List Symbol}
    (h : v ∈ cutsAlts as w) : ∃ u, w = u ++ v ∧ SpellsOne as u := by
  cases as with
  | nil => cases h
  | cons a as =>
    rw [cutsAlts] at h
    rcases List.mem_append.mp h with h | h
    · obtain ⟨u, hw, hu⟩ := spells_of_mem_cutsAll a h
      exact ⟨u, hw, by rw [SpellsOne]; exact .inl hu⟩
    · obtain ⟨u, hw, hu⟩ := spells_of_mem_cutsAlts as h
      exact ⟨u, hw, by rw [SpellsOne]; exact .inr hu⟩

end

/-- Whether children are found to be a form of a rule. -/
def isForm (r : Rule) (items : List Item) (w : List Symbol) : Bool :=
  (cutsAll items w).contains [] || (trailing items).any fun op =>
    (cutFirst (· == .phrase r) w).any fun v => (cutsAll op.2 v).contains []

theorem spellsAll_of_contains {items : List Item} (h : (cutsAll items w).contains [] = true) :
    SpellsAll items w := by
  obtain ⟨u, rfl, hu⟩ := spells_of_mem_cutsAll items (List.contains_iff_mem.mp h)
  rwa [List.append_nil]

theorem forms_of_isForm {r : Rule} {items : List Item} (h : isForm r items w = true) :
    Forms r items w := by
  rcases Bool.or_eq_true_iff.mp h with h | h
  · exact .inl (spellsAll_of_contains h)
  · obtain ⟨op, hop, h⟩ := List.any_eq_true.mp h
    obtain ⟨v, hv, hrest⟩ := List.any_eq_true.mp h
    obtain ⟨s, hs, rfl⟩ := of_mem_cutFirst hv
    exact .inr ⟨op, hop, v, by rw [eq_of_beq hs], spellsAll_of_contains hrest⟩

end Item

/-! ## Trees -/

namespace Tree

mutual

/-- Whether a tree is found to follow the grammar. -/
def recognized (g : Grammar) : Tree → Bool
  | token t => t.text != "" && t.kind.spelling?.all (t.text == ·)
  | node r _ last _ children =>
    Item.isForm r (g r) (children.map Symbol.of) && last.isSome && recognizedAll g children
  | skipped _ | missing _ => false

def recognizedAll (g : Grammar) : List Tree → Bool
  | [] => true
  | t :: ts => recognized g t && recognizedAll g ts

end

mutual

theorem derived_of_recognized {g : Grammar} (t : Tree) (h : t.recognized g = true) :
    t.Derived g := by
  cases t with
  | token t =>
    rw [recognized, Bool.and_eq_true] at h
    refine .token ⟨by simpa using h.1, fun s hs => ?_⟩
    rw [hs] at h
    exact eq_of_beq h.2
  | node r first last labels children =>
    simp only [recognized, Bool.and_eq_true] at h
    obtain ⟨⟨hform, hlast⟩, hparts⟩ := h
    refine .node (Item.forms_of_isForm hform) (derived_of_recognizedAll children hparts) ?_
    intro hnone
    rw [hnone] at hlast
    cases hlast
  | skipped | missing => cases h

theorem derived_of_recognizedAll {g : Grammar} (ts : List Tree)
    (h : recognizedAll g ts = true) : ∀ t ∈ ts, t.Derived g := by
  cases ts with
  | nil => exact nofun
  | cons t ts =>
    rw [recognizedAll, Bool.and_eq_true] at h
    exact List.forall_mem_cons.mpr
      ⟨derived_of_recognized t h.1, derived_of_recognizedAll ts h.2⟩

end

mutual

/-- Whether every node begins at the first of its tokens. -/
def isAnchored : Tree → Bool
  | token _ => true
  | node _ first _ _ children =>
    (children.flatMap tokens).head?.all (first == ·) && isAnchoredAll children
  | skipped _ | missing _ => false

def isAnchoredAll : List Tree → Bool
  | [] => true
  | t :: ts => t.isAnchored && isAnchoredAll ts

end

mutual

theorem anchored_of_isAnchored (t : Tree) (h : t.isAnchored = true) : t.Anchored := by
  cases t with
  | token t => exact .token t
  | node r first last labels children =>
    rw [isAnchored, Bool.and_eq_true] at h
    refine .node (fun x hx => ?_) (anchored_of_isAnchoredAll children h.2)
    rw [Option.mem_def.mp hx] at h
    exact eq_of_beq h.1
  | skipped | missing => cases h

theorem anchored_of_isAnchoredAll (ts : List Tree) (h : isAnchoredAll ts = true) :
    ∀ t ∈ ts, t.Anchored := by
  cases ts with
  | nil => exact nofun
  | cons t ts =>
    rw [isAnchoredAll, Bool.and_eq_true] at h
    exact List.forall_mem_cons.mpr
      ⟨anchored_of_isAnchored t h.1, anchored_of_isAnchoredAll ts h.2⟩

end

/-! ## Trees over a line -/

mutual

/-- The tree with its tokens in one line, a blank after each of them, from a column and an index on, and
with every node from its first token to its last. -/
def spaced : Tree → Nat × Nat → Tree × (Nat × Nat)
  | token t, (column, index) =>
    (token { t with place := ⟨column, 1, column⟩, index }, column + t.text.length + 1, index + 2)
  | node r _ _ labels children, start =>
    let (parts, next) := spacedAll children start
    let tokens := parts.flatMap tokens
    (node r (tokens.headD default) tokens.getLast? labels parts, next)
  | skipped t, start => (skipped t, start)
  | missing t, start => (missing t, start)

def spacedAll : List Tree → Nat × Nat → List Tree × (Nat × Nat)
  | [], start => ([], start)
  | t :: ts, start =>
    let (first, next) := spaced t start
    let (rest, next) := spacedAll ts next
    (first :: rest, next)

end

/-- The tree as that of a line of its own. -/
def lined (t : Tree) : Tree := (t.spaced (0, 0)).1

/-- A tree that is found to follow the grammar is read from a text that consists of its tokens. -/
theorem readFrom_of_visible {text : String} {t : Tree} (last : Token)
    (hrecognized : t.recognized Java.body = true) (hanchored : t.isAnchored = true)
    (hvisible : (Lexed.ofText text).visible = t.tokens.filter (·.kind ≠ .eof) ++ [last]) :
    t.ReadFrom text :=
  ⟨derived_of_recognized t hrecognized, anchored_of_isAnchored t hanchored,
    [], [last], by rw [hvisible, List.nil_append]⟩

end Tree

end Callscope
