import Callscope.Proofs.Outline.Parts
import Callscope.Proofs.Outline.Provenance
import Callscope.Proofs.Parse.Recognition
import Callscope.Proofs.Parse.Standing

/-!
# Calls stand where they are recorded

A call phrase is a name, or one of the words `this` and `super`, and an opening bracket next. Its node
begins at the token of the name, so the line and the column that are recorded are those of this token,
and there the text has the name that is recorded.
-/

namespace Callscope

/-! ## Names and calls of a text -/

/-- The kinds of tokens that can stand before the bracket of a call. -/
def Java.calleeKinds : List Kind := Java.nameKinds ++ [.kwThis, .kwSuper]

theorem Java.isWord_of_calleeKinds : ∀ k ∈ Java.calleeKinds, k.isWord = true ∧ k ≠ .eof := by
  decide +kernel

namespace Tree

variable {text : String} {t : Tree}

namespace ReadFrom

/-- A name is a token of the text. -/
theorem identifier (h : t.ReadFrom text) (hr : t.rule? = some .identifier) :
    ∃ tk : Token, t.tokens = [tk] ∧ t.text = tk.text ∧ tk.kind ∈ Java.nameKinds := by
  obtain ⟨tk, hchildren, _, hk⟩ := h.derived.children_identifier hr
  refine ⟨tk, ?_, text_of_children hchildren, hk⟩
  rw [tokens_of_rule hr, hchildren, List.flatMap_singleton, tokens_token]

/-- The name of a class or of a method is a token of the text. -/
theorem declared (h : t.ReadFrom text)
    (hd : t.declaresClass = true ∨ t.rule? = some .methodDeclaration) :
    ∃ tk ∈ (Lexed.ofText text).visible, t.partText 1 = tk.text ∧ tk.kind ∈ Java.nameKinds := by
  have hsecond : t.symbols[1]? = some (Symbol.phrase .identifier) := by
    rcases hd with hd | hr
    · exact (Collector.symbols_class h.derived hd).1
    · obtain ⟨more, hsymbols⟩ := h.derived.symbols_method hr
      rw [hsymbols]
      rfl
  obtain ⟨name, hname, hr⟩ := child_of_symbol hsecond
  have hread := h.part (List.mem_of_getElem? hname)
  obtain ⟨tk, htokens, htext, hk⟩ := hread.identifier (of_eq_phrase.mp hr)
  refine ⟨tk, hread.mem_visible (htokens ▸ List.mem_singleton_self tk) ?_, ?_, hk⟩
  · exact (Java.isWord_of_calleeKinds _ (List.mem_append_left _ hk)).2
  · rw [Collector.partText_of_child hname, htext]

/-- What stands before the bracket of a call is one token. -/
theorem callee (h : t.ReadFrom text)
    (hs : Symbol.of t ∈ [Symbol.phrase .identifier, .token .kwThis, .token .kwSuper]) :
    ∃ tk : Token, t.tokens = [tk] ∧ t.text = tk.text ∧ tk.kind ∈ Java.calleeKinds := by
  -- The words in place of a name are tokens themselves.
  have hword : ∀ k ∈ [Kind.kwThis, .kwSuper], Symbol.of t = .token k →
      ∃ tk : Token, t.tokens = [tk] ∧ t.text = tk.text ∧ tk.kind ∈ Java.calleeKinds := by
    intro k hk hs
    obtain ⟨tk, rfl, _, rfl⟩ := h.derived.of_token hs
    exact ⟨tk, tokens_token tk, by rw [Tree.text], List.mem_append_right _ hk⟩
  simp only [List.mem_cons, List.not_mem_nil, or_false] at hs
  rcases hs with hs | hs | hs
  · obtain ⟨tk, htokens, htext, hkind⟩ := h.identifier (of_eq_phrase.mp hs)
    exact ⟨tk, htokens, htext, List.mem_append_left _ hkind⟩
  · exact hword _ (by decide) hs
  · exact hword _ (by decide) hs

/-- A call begins with the token that it is recorded as, and its bracket is the next token. -/
theorem called (h : t.ReadFrom text) (hr : t.rule? = some .methodCall) :
    ∃ name bracket more, t.tokens = name :: bracket :: more ∧ name.kind ∈ Java.calleeKinds ∧
      bracket.kind = .lparen ∧ bracket.text = "(" ∧
      Collector.callOf t (t.partText 0) = ⟨name.text, name.line, name.column⟩ := by
  obtain ⟨⟨s, hs, hfirst⟩, hsecond⟩ := h.derived.symbols_call hr
  obtain ⟨c₀, hc₀, rfl⟩ := child_of_symbol hfirst
  obtain ⟨c₁, hc₁, hbracket⟩ := child_of_symbol hsecond
  obtain ⟨name, hname, htext, hk⟩ := (h.part (List.mem_of_getElem? hc₀)).callee hs
  obtain ⟨bracket, rfl, hproper, hkind⟩ :=
    (h.derived.of_mem (List.mem_of_getElem? hc₁)).of_token hbracket
  have hpart : t.partText 0 = name.text := by
    rw [Collector.partText_of_child hc₀, htext]
  cases h.anchored with
  | token => cases hr
  | @node r first last labels children begun anchors =>
    match children with
    | [] => cases hc₀
    | [_] => cases hc₁
    | _ :: _ :: rest =>
      cases hc₀
      cases hc₁
      have htokens : (c₀ :: .token bracket :: rest).flatMap tokens =
          name :: bracket :: rest.flatMap tokens := by
        simp [hname]
      obtain rfl := begun name (by rw [htokens]; rfl)
      refine ⟨first, bracket, rest.flatMap tokens, ?_, hk, hkind, ?_, ?_⟩
      · rw [tokens_node, htokens]
      · exact hproper.2 "(" (by rw [hkind]; rfl)
      · rw [hpart]
        rfl

end ReadFrom

end Tree

/-! ## Call sites -/

/-- The call is recorded with the whole text of a token that the parser sees right before an opening
bracket, and with the line and the column where the text has it. -/
def Call.StandsIn (text : String) (call : Call) : Prop :=
  ∃ before name bracket after line,
    (Lexed.ofText text).visible = before ++ name :: bracket :: after ∧
    bracket.kind = .lparen ∧ bracket.text = "(" ∧
    call.value = name.text ∧ call.line = name.line ∧ call.column = name.column ∧
    0 < name.line ∧ (Text.lines text)[name.line - 1]? = some line ∧
    name.text.toList <+: line.drop name.column

namespace Collector

variable {text : String} {t : Tree}

theorem standsIn_of_call (h : t.ReadFrom text) (hr : t.rule? = some .methodCall) :
    (callOf t (t.partText 0)).StandsIn text := by
  obtain ⟨name, bracket, more, htokens, hk, hkind, htext, hcall⟩ := h.called hr
  obtain ⟨hword, hname⟩ := Java.isWord_of_calleeKinds _ hk
  obtain ⟨before, after, hvisible⟩ : ∃ before after,
      (Lexed.ofText text).visible = before ++ name :: bracket :: after := by
    have hcovers := h.covers
    rw [htokens, List.filter_cons_of_pos (by simpa using hname),
      List.filter_cons_of_pos (by simp [hkind])] at hcovers
    obtain ⟨before, after, hsplit⟩ := hcovers
    exact ⟨before, more.filter (·.kind ≠ .eof) ++ after, by rw [← hsplit]; simp⟩
  have hmem : name ∈ (Lexed.ofText text).visible := by
    rw [hvisible]
    simp
  obtain ⟨hpos, line, hline, hprefix⟩ := Lexed.onLine_of_visible hmem hword
  rw [hcall]
  exact ⟨before, name, bracket, after, line, hvisible, hkind, htext, rfl, rfl, rfl, hpos, hline,
    hprefix⟩

/-- The calls recorded on a walk through a tree stand in the text that the tree was read from. -/
theorem calls_standIn (h : t.ReadFrom text) :
    ∀ call ∈ (collect {} t).collector.outline.calls, call.StandsIn text := by
  have hholds : (collect {} t).collector.outline.Holds (fun _ => True) (Call.StandsIn text) := by
    refine holds_collect fun u above hu => ?_
    have hread := of_enter_mem_visits (fun hp => hp.part) t h hu
    exact ⟨fun _ => trivial, standsIn_of_call hread⟩
  exact hholds.calls

/-- Every call in the outline of a text that is read without a report stands in the text where it is
recorded, whatever rule the text is read as and however the walk ends. -/
theorem calls_faithful :
    (∀ text t, t.ReadFrom text →
      ∀ call ∈ (collect {} t).collector.outline.calls, call.StandsIn text) ∧
    ∀ text rule level p, Parse.ofText? text rule level = some p → p.reports = [] →
      ∀ call ∈ (collect {} p.tree).collector.outline.calls, call.StandsIn text :=
  ⟨fun _ _ h => calls_standIn h,
    fun _ _ _ _ h hclean => calls_standIn (Parse.readFrom_of_reports_nil h hclean)⟩

/-- A call on a line that begins inside of a token. -/
def trimmedText : String := "class A \x7b\n  String s = \"\"\"\n    b\"\"\".trim();\n\x7d"

/-- The tokens of the text, without white space. -/
def trimmedTokens : List Token :=
  [⟨.kwClass, "class", ⟨0, 1, 0⟩, 0⟩, ⟨.identifier, "A", ⟨6, 1, 6⟩, 2⟩,
    ⟨.lbrace, "\x7b", ⟨8, 1, 8⟩, 4⟩, ⟨.identifier, "String", ⟨12, 2, 2⟩, 6⟩,
    ⟨.identifier, "s", ⟨19, 2, 9⟩, 8⟩, ⟨.assign, "=", ⟨21, 2, 11⟩, 10⟩,
    ⟨.textBlock, "\"\"\"\n    b\"\"\"", ⟨23, 2, 13⟩, 12⟩, ⟨.dot, ".", ⟨35, 3, 8⟩, 13⟩,
    ⟨.identifier, "trim", ⟨36, 3, 9⟩, 14⟩, ⟨.lparen, "(", ⟨40, 3, 13⟩, 15⟩,
    ⟨.rparen, ")", ⟨41, 3, 14⟩, 16⟩, ⟨.semi, ";", ⟨42, 3, 15⟩, 17⟩,
    ⟨.rbrace, "\x7d", ⟨44, 4, 0⟩, 19⟩, .atEnd ⟨45, 4, 1⟩ 20]

/-- The tree of the text: the call is the right operand of a dot. -/
def trimmedTree : Tree :=
  let tokenAt (i : Nat) : Token := trimmedTokens.getD i default
  let word (i : Nat) : Tree := .token (tokenAt i)
  let phrase (r : Rule) (i j : Nat) (parts : List Tree) : Tree :=
    .node r (tokenAt i) (some (tokenAt j)) [] parts
  let call := phrase .methodCall 8 10 [phrase .identifier 8 8 [word 8], word 9, word 10]
  let block := phrase .expression 6 6 [phrase .primary 6 6 [phrase .literal 6 6 [word 6]]]
  let declarator := phrase .variableDeclarator 4 10
    [phrase .variableDeclaratorId 4 4 [phrase .identifier 4 4 [word 4]], word 5,
      phrase .variableInitializer 6 10 [phrase .expression 6 10 [block, word 7, call]]]
  let type := phrase .typeType 3 3
    [phrase .classOrInterfaceType 3 3 [phrase .typeIdentifier 3 3 [word 3]]]
  let field := phrase .fieldDeclaration 3 11
    [type, phrase .variableDeclarators 4 10 [declarator], word 11]
  let body := phrase .classBody 2 12 [word 2,
    phrase .classBodyDeclaration 3 11 [phrase .memberDeclaration 3 11 [field]], word 12]
  phrase .compilationUnit 0 12 [phrase .typeDeclaration 0 12
    [phrase .classDeclaration 0 12 [word 0, phrase .identifier 1 1 [word 1], body]]]

theorem readFrom_trimmed : trimmedTree.ReadFrom trimmedText := by
  have hvisible : (Lexed.ofText trimmedText).visible = trimmedTokens := by decide +kernel
  refine ⟨Tree.derived_of_recognized trimmedTree (by decide +kernel),
    Tree.anchored_of_isAnchored trimmedTree (by decide +kernel), ?_⟩
  rw [hvisible]
  exact ⟨[], [.atEnd ⟨45, 4, 1⟩ 20], by decide +kernel⟩

/-- The call is found after the end of the token that the line begins in. -/
theorem calls_faithful_trimmed :
    trimmedTree.ReadFrom trimmedText ∧
    (collect {} trimmedTree).collector.outline.calls = [⟨"trim", 3, 9⟩] ∧
    Call.StandsIn trimmedText ⟨"trim", 3, 9⟩ := by
  have hcalls : (collect {} trimmedTree).collector.outline.calls = [⟨"trim", 3, 9⟩] := by
    decide +kernel
  refine ⟨readFrom_trimmed, hcalls, ?_⟩
  exact calls_faithful.1 trimmedText trimmedTree readFrom_trimmed _ (by rw [hcalls]; simp)

end Collector

end Callscope
