import Callscope.Grammar.Java
import Callscope.Grammar.Parts

/-!
# The forms of a phrase

A right-hand side spells words of symbols, as a regular expression does. A phrase of a rule has as its
children a word of its right-hand side, or itself as the left operand and a word of one of its
operators. The numbers of sites play no part in this, so the numbered rules of a parser have the same
forms as the grammar.
-/

namespace Callscope

namespace Item

mutual

/-- The words of an item. A loop of operators adds nothing to the phrase before it. -/
def Spells : Item → List Symbol → Prop
  | terminal _ k _, w => w = [.token k]
  | terminalOf _ ks _, w => ∃ k ∈ ks, w = [.token k]
  | call _ r _ _, w => w = [.phrase r]
  | branch _ alts, w => SpellsOne alts w
  | loop _ body, w => ∃ ws : List (List Symbol), w = ws.flatten ∧ ∀ u ∈ ws, SpellsAll body u
  | loopOnce _ body, w =>
    ∃ ws : List (List Symbol), ws ≠ [] ∧ w = ws.flatten ∧ ∀ u ∈ ws, SpellsAll body u
  | climb _ _, w => w = []

/-- The words of items one after the other. -/
def SpellsAll : List Item → List Symbol → Prop
  | [], w => w = []
  | i :: is, w => ∃ u v, w = u ++ v ∧ Spells i u ∧ SpellsAll is v

/-- The words of one of several alternatives. -/
def SpellsOne : List (List Item) → List Symbol → Prop
  | [], _ => False
  | a :: as, w => SpellsAll a w ∨ SpellsOne as w

end

/-- The operators at the end of a right-hand side. -/
def trailing (items : List Item) : List (Nat × List Item) :=
  match items.getLast? with
  | some (climb _ ops) => ops
  | _ => []

/-- The children that a phrase of a rule can have. -/
def Forms (r : Rule) (items : List Item) (w : List Symbol) : Prop :=
  SpellsAll items w ∨ ∃ op ∈ trailing items, ∃ v, w = .phrase r :: v ∧ SpellsAll op.2 v

/-! ## Words of lists -/

theorem spellsAll_nil {w : List Symbol} : SpellsAll [] w ↔ w = [] := by
  rw [SpellsAll]

theorem spellsAll_cons {i : Item} {is : List Item} {w : List Symbol} :
    SpellsAll (i :: is) w ↔ ∃ u v, w = u ++ v ∧ Spells i u ∧ SpellsAll is v := by
  rw [SpellsAll]

theorem spellsAll_append {is js : List Item} {w : List Symbol} :
    SpellsAll (is ++ js) w ↔ ∃ u v, w = u ++ v ∧ SpellsAll is u ∧ SpellsAll js v := by
  induction is generalizing w with
  | nil =>
    simp only [List.nil_append, spellsAll_nil]
    constructor
    · exact fun h => ⟨[], w, rfl, rfl, h⟩
    · rintro ⟨u, v, rfl, rfl, h⟩
      exact h
  | cons i is ih =>
    simp only [List.cons_append, spellsAll_cons, ih]
    constructor
    · rintro ⟨u, v, rfl, hi, u', v', rfl, his, hjs⟩
      exact ⟨u ++ u', v', (List.append_assoc ..).symm, ⟨u, u', rfl, hi, his⟩, hjs⟩
    · rintro ⟨u, v, rfl, ⟨u', v', rfl, hi, his⟩, hjs⟩
      exact ⟨u', v' ++ v, List.append_assoc .., hi, v', v, rfl, his, hjs⟩

theorem spellsOne_iff {alts : List (List Item)} {w : List Symbol} :
    SpellsOne alts w ↔ ∃ a ∈ alts, SpellsAll a w := by
  induction alts with
  | nil => simp [SpellsOne]
  | cons a as ih => simp [SpellsOne, ih]

/-- One more round of a loop. -/
theorem spells_loop_cons {s : Nat} {body : List Item} {u v : List Symbol}
    (hu : SpellsAll body u) (hv : Spells (loop s body) v) : Spells (loop s body) (u ++ v) := by
  rw [Spells] at hv ⊢
  obtain ⟨ws, rfl, hws⟩ := hv
  refine ⟨u :: ws, rfl, fun x hx => ?_⟩
  rcases List.mem_cons.mp hx with rfl | hx
  · exact hu
  · exact hws x hx

theorem spells_loop_nil {s : Nat} {body : List Item} : Spells (loop s body) [] := by
  rw [Spells]
  exact ⟨[], rfl, by simp⟩

theorem spells_loopOnce_cons {s : Nat} {body : List Item} {u v : List Symbol}
    (hu : SpellsAll body u) (hv : Spells (loop s body) v) :
    Spells (loopOnce s body) (u ++ v) := by
  simp only [Spells] at hv ⊢
  obtain ⟨ws, rfl, hws⟩ := hv
  refine ⟨u :: ws, by simp, rfl, fun x hx => ?_⟩
  rcases List.mem_cons.mp hx with rfl | hx
  · exact hu
  · exact hws x hx

/-! ## Numbers do not matter -/

mutual

theorem spells_number (n : Nat) (i : Item) (w : List Symbol) :
    Spells (number n i).1 w ↔ Spells i w := by
  cases i with
  | terminal | terminalOf | call | climb => simp only [number, Spells]
  | branch s alts => simp only [number, Spells, spellsOne_numberAlts]
  | loop s body => simp only [number, Spells, spellsAll_numberAll]
  | loopOnce s body => simp only [number, Spells, spellsAll_numberAll]

theorem spellsAll_numberAll (n : Nat) (is : List Item) (w : List Symbol) :
    SpellsAll (numberAll n is).1 w ↔ SpellsAll is w := by
  cases is with
  | nil => simp only [numberAll]
  | cons i is => simp only [numberAll, SpellsAll, spells_number, spellsAll_numberAll]

theorem spellsOne_numberAlts (n : Nat) (as : List (List Item)) (w : List Symbol) :
    SpellsOne (numberAlts n as).1 w ↔ SpellsOne as w := by
  cases as with
  | nil => simp only [numberAlts]
  | cons a as => simp only [numberAlts, SpellsOne, spellsAll_numberAll, spellsOne_numberAlts]

end

/-! ## Operators stand at the end -/

mutual

/-- No operators inside, and no choice without alternatives. -/
def plain : Item → Bool
  | terminal .. | terminalOf .. | call .. => true
  | branch _ alts => !alts.isEmpty && plainAlts alts
  | loop _ body | loopOnce _ body => plainAll body
  | climb .. => false

def plainAll : List Item → Bool
  | [] => true
  | i :: is => plain i && plainAll is

def plainAlts : List (List Item) → Bool
  | [] => true
  | a :: as => plainAll a && plainAlts as

end

/-- Operators that each add something to their left operand. -/
def plainOps (ops : List (Nat × List Item)) : Bool :=
  !ops.isEmpty && ops.all fun op => !op.2.isEmpty && plainAll op.2

/-- A right-hand side of plain items, with operators after them or not. -/
def Proper (is : List Item) : Prop := plainAll is = true ∨
  ∃ init s ops, is = init ++ [climb s ops] ∧ plainAll init = true ∧ plainOps ops = true

theorem plainAll_iff {is : List Item} : plainAll is = true ↔ ∀ i ∈ is, plain i = true := by
  induction is with
  | nil => simp [plainAll]
  | cons i is ih => simp [plainAll, ih]

theorem plainAlts_iff {as : List (List Item)} :
    plainAlts as = true ↔ ∀ a ∈ as, plainAll a = true := by
  induction as with
  | nil => simp [plainAlts]
  | cons a as ih => simp [plainAlts, ih]

theorem plainOps_iff {ops : List (Nat × List Item)} :
    plainOps ops = true ↔ ops ≠ [] ∧ ∀ op ∈ ops, op.2 ≠ [] ∧ plainAll op.2 = true := by
  simp [plainOps]

theorem trailing_concat (init : List Item) (s : Nat) (ops : List (Nat × List Item)) :
    trailing (init ++ [climb s ops]) = ops := by
  simp [trailing]

theorem trailing_of_plainAll {is : List Item} (h : plainAll is = true) : trailing is = [] := by
  rw [trailing]
  split
  · rename_i s ops hlast
    have hmem := List.mem_of_getLast? hlast
    have hplain := plainAll_iff.mp h _ hmem
    simp [plain] at hplain
  · rfl

/-! ## Numbered right-hand sides -/

theorem numberAlts_isEmpty (n : Nat) (as : List (List Item)) :
    (numberAlts n as).1.isEmpty = as.isEmpty := by
  cases as <;> rfl

theorem numberAll_isEmpty (n : Nat) (is : List Item) :
    (numberAll n is).1.isEmpty = is.isEmpty := by
  cases is <;> rfl

mutual

theorem plain_number (n : Nat) (i : Item) : plain (number n i).1 = plain i := by
  cases i with
  | terminal | terminalOf | call | climb => simp only [number, plain]
  | branch s alts => simp only [number, plain, numberAlts_isEmpty, plainAlts_numberAlts]
  | loop s body => simp only [number, plain, plainAll_numberAll]
  | loopOnce s body => simp only [number, plain, plainAll_numberAll]

theorem plainAll_numberAll (n : Nat) (is : List Item) :
    plainAll (numberAll n is).1 = plainAll is := by
  cases is with
  | nil => simp only [numberAll]
  | cons i is => simp only [numberAll, plainAll, plain_number, plainAll_numberAll]

theorem plainAlts_numberAlts (n : Nat) (as : List (List Item)) :
    plainAlts (numberAlts n as).1 = plainAlts as := by
  cases as with
  | nil => simp only [numberAlts]
  | cons a as => simp only [numberAlts, plainAlts, plainAll_numberAll, plainAlts_numberAlts]

end

theorem numberAll_append (n : Nat) (is js : List Item) :
    numberAll n (is ++ js) = ((numberAll n is).1 ++ (numberAll (numberAll n is).2 js).1,
      (numberAll (numberAll n is).2 js).2) := by
  induction is generalizing n with
  | nil => simp [numberAll]
  | cons i is ih => simp [numberAll, ih]

/-- The operators of a list keep their words when they are numbered. -/
theorem mem_numberOps {n : Nat} {ops : List (Nat × List Item)} {op : Nat × List Item}
    (h : op ∈ (numberOps n ops).1) :
    ∃ m items, (op.1, items) ∈ ops ∧ op.2 = (numberAll m items).1 := by
  induction ops generalizing n with
  | nil => simp [numberOps] at h
  | cons o ops ih =>
    obtain ⟨v, a⟩ := o
    simp only [numberOps, List.mem_cons] at h
    rcases h with rfl | h
    · exact ⟨n + 2, a, List.mem_cons_self, rfl⟩
    · obtain ⟨m, items, hmem, hop⟩ := ih h
      exact ⟨m, items, List.mem_cons_of_mem _ hmem, hop⟩

theorem plainOps_numberOps (n : Nat) (ops : List (Nat × List Item)) :
    plainOps (numberOps n ops).1 = plainOps ops := by
  have hall : ∀ n (ops : List (Nat × List Item)),
      ((numberOps n ops).1.all fun op => !op.2.isEmpty && plainAll op.2) =
        ops.all fun op => !op.2.isEmpty && plainAll op.2 := by
    intro n ops
    induction ops generalizing n with
    | nil => rfl
    | cons o ops ih =>
      simp only [numberOps, List.all_cons, numberAll_isEmpty, plainAll_numberAll, ih]
  rw [plainOps, plainOps, hall]
  congr 2
  cases ops <;> rfl

/-- A numbered right-hand side has the forms of the right-hand side. -/
theorem forms_numberAll {n : Nat} {is : List Item} {r : Rule} {w : List Symbol}
    (hp : Proper is) (h : Forms r (numberAll n is).1 w) : Forms r is w := by
  rcases h with h | ⟨op, hop, v, hw, hv⟩
  · exact Or.inl ((spellsAll_numberAll n is w).mp h)
  · rcases hp with hp | ⟨init, s, ops, rfl, hinit, hops⟩
    · rw [trailing_of_plainAll (by rw [plainAll_numberAll]; exact hp)] at hop
      cases hop
    · refine Or.inr ?_
      rw [numberAll_append] at hop
      simp only [numberAll, number, trailing_concat] at hop
      obtain ⟨m, items, hmem, hitems⟩ := mem_numberOps hop
      rw [trailing_concat]
      exact ⟨_, hmem, v, hw, (spellsAll_numberAll m items v).mp (hitems ▸ hv)⟩

theorem proper_numberAll {n : Nat} {is : List Item} (h : Proper is) :
    Proper (numberAll n is).1 := by
  rcases h with h | ⟨init, s, ops, rfl, hinit, hops⟩
  · exact Or.inl (by rw [plainAll_numberAll]; exact h)
  · refine Or.inr ?_
    rw [numberAll_append]
    simp only [numberAll, number]
    refine ⟨_, _, _, rfl, ?_, ?_⟩
    · rw [plainAll_numberAll]
      exact hinit
    · rw [plainOps_numberOps]
      exact hops

end Item

/-- Every rule of Java has operators at its end only. -/
theorem Java.proper_body (r : Rule) : Item.Proper (Java.body r) := by
  cases r with
  | expression =>
    exact Or.inr ⟨(Java.body .expression).dropLast, 0, Item.trailing (Java.body .expression), rfl,
      rfl, rfl⟩
  | guardedPattern =>
    exact Or.inr ⟨(Java.body .guardedPattern).dropLast, 0,
      Item.trailing (Java.body .guardedPattern), rfl, rfl, rfl⟩
  | _ => exact Or.inl rfl

end Callscope
