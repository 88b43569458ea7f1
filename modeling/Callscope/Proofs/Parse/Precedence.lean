import Callscope.Proofs.Grammar.Words
import Callscope.Proofs.Outline.Walk
import Callscope.Proofs.Parse.Grades
import Callscope.Proofs.Parse.Shapes
import Callscope.Proofs.Parse.Termination

/-!
# Operators group by their levels

An expression that begins with an expression is one with an operator, whose level is known from the
symbols after that operand. Operators group what stands around them by their levels: an operand on the left
binds at least as tight and one on the right tighter, while assignments and conditionals group to the
right. The only exception is a comparison to the left of a shift, because both can begin with the same
token.
-/

namespace Callscope

namespace Kind

/-- The level of an operator by its first token after the operand. -/
def operatorLevel? : Kind → Option Nat
  | dot => some 26
  | lbrack => some 25
  | inc | dec => some 21
  | mul | div | mod => some 18
  | add | sub => some 17
  | lt | gt | le | ge => some 15
  | kwInstanceof => some 14
  | equal | notEqual => some 13
  | bitAnd => some 12
  | caret => some 11
  | bitOr => some 10
  | andAnd => some 9
  | orOr => some 8
  | question => some 7
  | assign | addAssign | subAssign | mulAssign | divAssign | andAssign | orAssign | xorAssign
  | rshiftAssign | urshiftAssign | lshiftAssign | modAssign => some 6
  | colonColon => some 3
  | _ => none

/-- The level of the operand after a cast or a sign, by its first token. -/
def prefixLevel? : Kind → Option Nat
  | lparen => some 22
  | inc | dec | add | sub => some 20
  | bang | tilde => some 19
  | _ => none

end Kind

/-- The level of an operator by the symbols after the operand. Two brackets of a kind are a shift. -/
def operatorLevel? : List Symbol → Option Nat
  | .token k :: .token l :: _ =>
    if k = l ∧ (k = .lt ∨ k = .gt) then some 16 else k.operatorLevel?
  | .token k :: _ => k.operatorLevel?
  | _ => none

/-- Operators of the level stand between two operands. -/
def Infix (n : Nat) : Prop := 6 ≤ n ∧ n ≤ 18 ∧ n ≠ 14

instance (n : Nat) : Decidable (Infix n) := inferInstanceAs (Decidable (_ ∧ _ ∧ _))

/-- The lowest level in the right operand of an operator. Assignments and conditionals group to the
right. -/
def rightLevel (n : Nat) : Nat := if n = 6 ∨ n = 7 then n else n + 1

namespace Tree

/-- The level of an expression with an operator. -/
def level? : Tree → Option Nat
  | .node .expression _ _ _ (c :: cs) =>
    if c.rule? = some .expression then Callscope.operatorLevel? (cs.map Symbol.of) else none
  | _ => none

/-- The levels of an expression and of its left operands, one in the other. -/
def spine : Tree → List Nat
  | .node r first last labels (c :: cs) =>
    match level? (.node r first last labels (c :: cs)) with
    | some n => n :: spine c
    | none => []
  | _ => []

/-- What stands around the operator of an expression suits its level. -/
structure WellGrouped (u : Tree) : Prop where
  /-- An expression that begins with one has an operator. -/
  leveled : u.rule? = some .expression → ∀ c, u.children.head? = some c →
    c.rule? = some .expression → ∃ n, u.level? = some n
  /-- What ends in an operand and stands on the left binds no looser. -/
  left : ∀ n c m, u.level? = some n → u.children.head? = some c → c.level? = some m → Infix m →
    n ≤ m ∧ (n = 6 ∨ n = 7 → n ≠ m) ∨ n = 16 ∧ m = 15
  right : ∀ n c m, u.level? = some n → u.children.getLast? = some c → c.level? = some m →
    rightLevel n ≤ m
  /-- The operand of a cast or a sign. -/
  prefixed : ∀ tk q c m, u.rule? = some .expression → u.children.head? = some (.token tk) →
    tk.kind.prefixLevel? = some q → u.children.getLast? = some c → c.level? = some m → q ≤ m

/-- A sum is no left operand of a product. -/
example (x y z : Tree) : ¬ WellGrouped (phrase .expression
    [phrase .expression [phrase .expression [x], word .add "+", phrase .expression [y]],
      word .mul "*", phrase .expression [z]]) := by
  intro h
  have hleft := h.left 18 _ 17 rfl rfl rfl (by decide)
  omega

end Tree

/-! ## The grammar of expressions -/

namespace Item

/-- The operands and the loop of operators of a rule that is made of them. -/
def ladder? : List Item → Option (List (List Item) × Nat × List (Nat × List Item))
  | [.branch _ alts, .climb L ops] => some (alts, L, ops)
  | _ => none

/-- An operand begins with a token or with a phrase of another rule, and what comes after a cast or sign
is read at its level. -/
def isOperand (alt : List Item) : Bool :=
  ((alt.head?.bind words?).getD [[]]).all fun w =>
    match w with
    | [.phrase r] => decide (r ≠ .expression)
    | [.token k] => k.prefixLevel?.all fun q => lastLevel? .expression alt == some q
    | _ => false

/-- An operator is known by its words, and it ends in an operand if it stands between two of them. -/
def isOperator (op : Nat × List Item) : Bool :=
  upfrontAll op.2 &&
    ((wordsAll? op.2).getD [[]]).all (fun w => operatorLevel? w == some op.1 &&
      (decide (Infix op.1) || w.getLast? != some (.phrase .expression))) &&
    lastLevel? .expression op.2 == if Infix op.1 then some (rightLevel op.1) else none

/-- Operators of different levels begin with different tokens, but for comparisons and shifts. -/
def apart (a b : Nat × List Item) : Bool :=
  a.1 == b.1 || (decide (15 ≤ a.1 ∧ a.1 ≤ 16) && decide (15 ≤ b.1 ∧ b.1 ≤ 16)) ||
    (Look.ofItems (fun _ => .none) a.2).kinds.disjoint (Look.ofItems (fun _ => .none) b.2).kinds

variable {alt : List Item} {op a b : Nat × List Item} {w : List Symbol}

theorem exists_of_ladder? {is : List Item} {alts : List (List Item)} {L : Nat}
    {ops : List (Nat × List Item)} (h : ladder? is = some (alts, L, ops)) :
    ∃ s, is = [.branch s alts, .climb L ops] := by
  unfold ladder? at h
  split at h
  · cases h
    exact ⟨_, rfl⟩
  · cases h

theorem first_of_isOperand (h : isOperand alt = true) (hw : SpellsAll alt w) : ∃ x v, w = x :: v ∧
    x ≠ .phrase .expression ∧
    ∀ k q, x = .token k → k.prefixLevel? = some q → lastLevel? .expression alt = some q := by
  cases alt with
  | nil => cases h
  | cons i is =>
    obtain ⟨u, v, rfl, hu, _⟩ := spellsAll_cons.mp hw
    cases hwords : words? i with
    | none => simp [isOperand, hwords] at h
    | some ws =>
      rw [isOperand, List.head?_cons, Option.bind_some, hwords, Option.getD_some] at h
      have hfirst := List.all_eq_true.mp h u (mem_words i hu hwords)
      split at hfirst
      · rename_i r
        exact ⟨_, v, rfl, fun heq => of_decide_eq_true hfirst (Symbol.phrase.inj heq),
          fun k q heq => by cases heq⟩
      · rename_i k
        refine ⟨_, v, rfl, Symbol.noConfusion, fun k' q heq hq => ?_⟩
        cases heq
        rw [hq] at hfirst
        exact beq_iff_eq.mp hfirst
      · cases hfirst

theorem isOperator_iff : isOperator op = true ↔ upfrontAll op.2 = true ∧
    (∀ w ∈ (wordsAll? op.2).getD [[]], operatorLevel? w = some op.1 ∧
      (w.getLast? = some (.phrase .expression) → Infix op.1)) ∧
    lastLevel? .expression op.2 = if Infix op.1 then some (rightLevel op.1) else none := by
  simp [isOperator, and_assoc, or_iff_not_imp_right]

theorem level_of_isOperator (h : isOperator op = true) (hw : SpellsAll op.2 w) :
    operatorLevel? w = some op.1 ∧ (w.getLast? = some (.phrase .expression) → Infix op.1) := by
  have hall := (isOperator_iff.mp h).2.1
  cases hwords : wordsAll? op.2 with
  | none =>
    rw [hwords] at hall
    cases (hall [] List.mem_cons_self).1
  | some ws =>
    rw [hwords] at hall
    exact hall w (mem_wordsAll op.2 hw hwords)

theorem eq_or_of_apart {t : Tables} (h : apart a b = true) (ha : upfrontAll a.2 = true)
    (hb : upfrontAll b.2 = true) (hshares : t.Shares a.2 b.2) :
    a.1 = b.1 ∨ (15 ≤ a.1 ∧ a.1 ≤ 16) ∧ 15 ≤ b.1 ∧ b.1 ≤ 16 := by
  obtain ⟨k, hk, hk'⟩ := hshares
  rw [(looks_of_upfront _ (fun _ => .none) a.2 ha).1] at hk
  rw [(looks_of_upfront _ (fun _ => .none) b.2 hb).1] at hk'
  simp only [apart, Bool.or_eq_true, Bool.and_eq_true, beq_iff_eq, decide_eq_true_eq] at h
  refine h.resolve_right fun hdisjoint => ?_
  have hbit := congrArg (Nat.testBit · k.ctorIdx) (beq_iff_eq.mp hdisjoint)
  simp only [Nat.testBit_and, Nat.zero_testBit, Bool.and_eq_false_iff] at hbit
  rcases hbit with hbit | hbit
  · cases hk.symm.trans hbit
  · cases hk'.symm.trans hbit

end Item

/-- What the levels of the operators say about the words of an expression. -/
structure Tables.Ranked (t : Tables) (alts : List (List Item)) (L : Nat)
    (ops : List (Nat × List Item)) : Prop where
  ladder : t.Ladder .expression alts L ops
  operand : ∀ alt ∈ alts, Item.isOperand alt = true
  operator : ∀ op ∈ ops, Item.isOperator op = true
  apart : ∀ a ∈ ops, ∀ b ∈ ops, t.Shares a.2 b.2 →
    a.1 = b.1 ∨ (15 ≤ a.1 ∧ a.1 ≤ 16) ∧ 15 ≤ b.1 ∧ b.1 ≤ 16

namespace Java

theorem ladder_expression : ((Item.ladder? (tables.rule .expression).items).any fun x =>
    x.1.all Item.isOperand && decide (2 ≤ x.2.2.length) && x.2.2.all Item.isOperator &&
      x.2.2.all fun a => x.2.2.all (Item.apart a)) = true := by
  decide +kernel

theorem exists_ranked : ∃ alts L ops, tables.Ranked alts L ops := by
  obtain ⟨⟨alts, L, ops⟩, hladder, h⟩ := (Option.any_eq_true ..).mp ladder_expression
  simp only [Bool.and_eq_true, List.all_eq_true, decide_eq_true_eq] at h
  obtain ⟨⟨⟨hoperand, hseveral⟩, hoperator⟩, hapart⟩ := h
  have hupfront : ∀ op ∈ ops, Item.upfrontAll op.2 = true :=
    fun op hop => (Item.isOperator_iff.mp (hoperator op hop)).1
  refine ⟨alts, L, ops, ⟨Item.exists_of_ladder? hladder, hseveral, hupfront, ?_⟩, hoperand, hoperator,
    fun a ha b hb hshares => Item.eq_or_of_apart (hapart a ha b hb) (hupfront a ha) (hupfront b hb) hshares⟩
  intro op hop s q l hlast
  have hlevel := (Item.isOperator_iff.mp (hoperator op hop)).2.2
  rw [Item.lastLevel?_eq_some.mpr ⟨s, l, hlast⟩] at hlevel
  split at hlevel
  · rw [Option.some.inj hlevel, rightLevel]
    split <;> omega
  · cases hlevel

theorem regular_tables : tables.Regular :=
  Tables.regular_ofGrammar proper_body grounds_tables (by decide +kernel)

end Java

/-! ## Trees -/

namespace Tree

variable {t : Tables} {alts : List (List Item)} {L : Nat} {ops : List (Nat × List Item)} {level : Nat}
  {bound : Option Nat} {u c : Tree}

theorem level?_cons {first : Token} {last : Option Token} {labels : List (Label × String)}
    {cs : List Tree} (hc : c.rule? = some .expression) :
    level? (.node .expression first last labels (c :: cs)) = operatorLevel? (cs.map Symbol.of) :=
  if_pos hc

theorem rule?_of_level? {n : Nat} (h : u.level? = some n) : u.rule? = some .expression := by
  unfold level? at h
  split at h
  · rfl
  · cases h

theorem spine_of_none (h : u.level? = none) : u.spine = [] := by
  unfold spine
  split
  · rw [h]
  · rfl

theorem spine_cons {n : Nat} {r : Rule} {first : Token} {last : Option Token}
    {labels : List (Label × String)} {cs : List Tree}
    (h : level? (.node r first last labels (c :: cs)) = some n) :
    spine (.node r first last labels (c :: cs)) = n :: c.spine := by
  rw [spine, h]

theorem Graded.rule?_eq {r : Rule} (h : Graded t r alts ops level bound u) : u.rule? = some r := by
  cases h <;> rfl

section

variable (hr : t.Ranked alts L ops)

include hr

/-- An operand does not begin with an expression. -/
theorem rule?_ne_of_operand {alt : List Item} {cs : List Tree} (among : alt ∈ alts)
    (spells : Item.SpellsAll alt (cs.map Symbol.of)) (hc : cs.head? = some c) :
    c.rule? ≠ some .expression := by
  intro hrule
  obtain ⟨x, v, hword, hx, _⟩ := Item.first_of_isOperand (hr.operand alt among) spells
  cases cs with
  | nil => cases hc
  | cons c' cs =>
    cases hc
    exact hx ((List.cons.inj hword).1 ▸ of_eq_phrase.mpr hrule)

theorem level?_operand {alt : List Item} {cs : List Tree} (among : alt ∈ alts)
    (spells : Item.SpellsAll alt (cs.map Symbol.of)) (first : Token) (last : Option Token)
    (labels : List (Label × String)) : level? (.node .expression first last labels cs) = none := by
  cases cs with
  | nil => rfl
  | cons c cs => exact if_neg (rule?_ne_of_operand hr among spells rfl)

/-- The level of an expression with an operator is that of the operator. -/
theorem level?_operator {op : Nat × List Item} {lead : Tree} {cs : List Tree} (among : op ∈ ops)
    (leading : Graded t .expression alts ops level bound lead)
    (spells : Item.SpellsAll op.2 (cs.map Symbol.of)) (first : Token) (last : Option Token)
    (labels : List (Label × String)) :
    level? (.node .expression first last labels (lead :: cs)) = some op.1 := by
  rw [level?_cons leading.rule?_eq]
  exact (Item.level_of_isOperator (hr.operator op among) spells).1

theorem Graded.of_level? {m : Nat} (h : Graded t .expression alts ops level bound u)
    (hm : u.level? = some m) :
    level ≤ m ∧ ∃ op ∈ ops, op.1 = m ∧ bound = Item.lastLevel? .expression op.2 := by
  cases h with
  | operand among spells => cases hm.symm.trans (level?_operand hr among spells _ _ _)
  | operator among reaches leading looser spells =>
    cases hm.symm.trans (level?_operator hr among leading spells _ _ _)
    exact ⟨reaches, _, among, rfl, rfl⟩

theorem Graded.le_of_mem_spine (h : Graded t .expression alts ops level bound u) :
    ∀ n ∈ u.spine, level ≤ n := by
  induction h with
  | operand among spells =>
    rw [spine_of_none (level?_operand hr among spells _ _ _)]
    simp
  | operator among reaches leading looser spells ends ih =>
    rw [spine_cons (level?_operator hr among leading spells _ _ _)]
    exact List.forall_mem_cons.mpr ⟨reaches, ih⟩

/-- What is to the left of an operator binds at least as tight. -/
theorem le_of_looser {op : Nat × List Item} {m : Nat} (hop : op ∈ ops)
    (h : t.Looser ops op (rightLevel m)) :
    op.1 ≤ m ∧ (op.1 = 6 ∨ op.1 = 7 → op.1 ≠ m) ∨ op.1 = 16 ∧ m = 15 := by
  have hright : rightLevel m = m ∧ (m = 6 ∨ m = 7) ∨ rightLevel m = m + 1 ∧ ¬ (m = 6 ∨ m = 7) := by
    rw [rightLevel]
    split
    · exact .inl ⟨rfl, ‹_›⟩
    · exact .inr ⟨rfl, ‹_›⟩
  rcases h with hlt | ⟨other, hother, hshares, hlt⟩
  · omega
  · have hapart := hr.apart op hop other hother hshares
    omega

theorem Graded.wellGrouped (h : Graded t .expression alts ops level bound u) : u.WellGrouped := by
  cases h with
  | @operand _ alt inner first last labels cs among spells ends =>
    have hlevel := level?_operand hr among spells first last labels
    refine ⟨fun _ c hc hrule => absurd hrule (rule?_ne_of_operand hr among spells hc),
      fun n c m hn => ?_, fun n c m hn => ?_, fun tk q c m _ hhead hq hlast hm => ?_⟩
    · cases hn.symm.trans hlevel
    · cases hn.symm.trans hlevel
    · obtain ⟨x, v, hword, _, hbefore⟩ := Item.first_of_isOperand (hr.operand alt among) spells
      cases cs with
      | nil => cases hhead
      | cons c' cs =>
        cases hhead
        cases hword
        exact ((ends q c (hbefore _ q rfl hq) hlast).of_level? hr hm).1
  | @operator _ op bound inner lead first last labels cs among reaches leading looser spells ends =>
    have hlevel := level?_operator hr among leading spells first last labels
    refine ⟨fun _ _ _ _ => ⟨op.1, hlevel⟩, fun n c m hn hc hm hinfix => ?_,
      fun n c m hn hlast hm => ?_, fun tk q c m _ hhead => ?_⟩
    · cases hn.symm.trans hlevel
      cases hc
      obtain ⟨_, op', hop', rfl, rfl⟩ := leading.of_level? hr hm
      refine le_of_looser hr among (looser _ ?_)
      rw [(Item.isOperator_iff.mp (hr.operator op' hop')).2.2, if_pos hinfix]
    · cases hn.symm.trans hlevel
      obtain ⟨hword, hends⟩ := Item.level_of_isOperator (hr.operator op among) spells
      cases cs with
      | nil => cases hword
      | cons c' cs =>
        have hlast' : (c' :: cs).getLast? = some c := hlast
        have hinfix : Infix op.1 := by
          refine hends ?_
          rw [List.getLast?_map, hlast', Option.map_some, of_eq_phrase.mpr (rule?_of_level? hm)]
        have hright : Item.lastLevel? .expression op.2 = some (rightLevel op.1) := by
          rw [(Item.isOperator_iff.mp (hr.operator op among)).2.2, if_pos hinfix]
        exact ((ends _ c hright hlast').of_level? hr hm).1
    · cases hhead
      cases leading.rule?_eq

end

theorem wellGrouped_of_rule (h : u.rule? ≠ some .expression) : u.WellGrouped :=
  ⟨fun hrule => absurd hrule h, fun _ _ _ hn => absurd (rule?_of_level? hn) h,
    fun _ _ _ hn => absurd (rule?_of_level? hn) h, fun _ _ _ _ hrule => absurd hrule h⟩

end Tree

/-! ## Texts -/

namespace Parse

variable {r : Rule} {alts : List (List Item)} {L : Nat} {ops : List (Nat × List Item)}

/-- The phrases of a rule with operators in a text that is read without a report were read at levels, the
whole text at the level at which it was begun. -/
theorem layered_of_reports_nil {text : String} {rule : Rule} {level : Nat} {p : Parse}
    (h : Parse.ofText? text rule level = some p) (hclean : p.reports = [])
    (hl : Java.tables.Ladder r alts L ops) : p.tree.Layered Java.tables r alts ops ∧
      (rule = r → ∃ bound, p.tree.Graded Java.tables r alts ops level bound) := by
  obtain ⟨m, ⟨_, hclimbing, houter⟩, hdone, hcallers, htree⟩ := exists_of_reports_nil
    (P := fun m => Machine.Deriving Java.body m ∧ Machine.Climbing Java.tables r alts L ops m ∧
      m.begun.getLast? = some (rule, level)) h hclean
    (fun current rest hvisible => ⟨deriving_start rule level hvisible,
      Machine.climbing_start rule level current rest, rfl⟩)
    (fun m m' hmoves hp => ⟨hp.1.moves Java.proper_body hmoves,
      hp.2.1.moves Java.proper_body Java.paced_tables Java.regular_tables hl hp.1 hmoves,
      hmoves.outermost.trans hp.2.2⟩)
  rw [Machine.begun, hcallers] at houter
  obtain ⟨rfl, rfl⟩ := Prod.mk.inj (Option.some.inj houter)
  have hgraded := hclimbing.exists_graded hl hdone
  rw [htree]
  constructor
  · refine Machine.layered_close (hclimbing.read m.frame List.mem_cons_self) fun hrule => ?_
    obtain ⟨bound, hgraded, _⟩ := hgraded hrule
    exact ⟨_, bound, hgraded⟩
  · intro hrule
    obtain ⟨bound, hgraded, _⟩ := hgraded hrule
    exact ⟨bound, hgraded⟩

/-- A text that is read without a report, as a phrase of any rule at any level, has a tree in which the
operators group by their levels, and the level bounds the operators of the outermost expression. -/
theorem operators_group_by_level (text : String) (rule : Rule) (level : Nat) :
    ∃ p, Parse.ofText? text rule level = some p ∧ (p.reports = [] →
      (∀ u above, .enter u above ∈ p.tree.walk → u.WellGrouped) ∧
      ∀ n ∈ p.tree.spine, level ≤ n) := by
  obtain ⟨p, hp⟩ := exists_ofText? text rule level
  refine ⟨p, hp, fun hclean => ?_⟩
  obtain ⟨alts, L, ops, hr⟩ := Java.exists_ranked
  obtain ⟨hlayered, hgraded⟩ := layered_of_reports_nil hp hclean hr.ladder
  refine ⟨fun u above hu => ?_, ?_⟩
  · have hnode : u.Layered Java.tables .expression alts ops :=
      Collector.of_enter_mem_visits (fun h hc => h.of_mem hc) p.tree hlayered hu
    by_cases hrule : u.rule? = some .expression
    · obtain ⟨level, bound, hgraded⟩ := hnode.graded_of_rule hrule
      exact hgraded.wellGrouped hr
    · exact Tree.wellGrouped_of_rule hrule
  · by_cases hrule : rule = .expression
    · obtain ⟨bound, hgraded⟩ := hgraded hrule
      exact hgraded.le_of_mem_spine hr
    · have hlevel : p.tree.level? = none := by
        cases hlevel : p.tree.level? with
        | none => rfl
        | some n =>
          have hrule' := (derived_of_reports_nil hp hclean).2
          rw [Tree.rule?_of_level? hlevel] at hrule'
          exact absurd (Option.some.inj hrule').symm hrule
      rw [Tree.spine_of_none hlevel]
      simp

end Parse

end Callscope
