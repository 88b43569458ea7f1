import Callscope.Proofs.Lookahead.Profile
import Callscope.Proofs.Lookahead.Range

/-!
# Two lookaheads side by side

Two decisions between the same two choices read the same tokens with known callers. In one of them the
second choice sees all that either choice sees in the other, and the first choice sees the same in both.
Then the one cannot end with its second choice when the other ends with its first: token by token, the
second choice is never left alone in the one before it is in the other.
-/

namespace Callscope

/-! ## The first token of a sight -/

namespace Sight

/-- The sight begins with a token of the kind, or needs none. -/
def Begins (k : Kind) : Sight → Prop
  | ended => True
  | reads k' | after k' _ => k' = k

/-- A kind of token with which a sight begins. -/
def first : Sight → Kind
  | ended => .eof
  | reads k | after k _ => k

theorem begins_first (w : Sight) : w.Begins w.first := by
  cases w with
  | ended => exact trivial
  | reads | after => exact rfl

end Sight

namespace Lookahead

variable {t : Tables} {cs : List Config} {k : Kind} {alt level : Nat}

/-! ## What a set decides -/

theorem alt_mem_alts {c : Config} (h : c ∈ cs) : c.alt ∈ alts cs := by
  have hseen : ∀ (alt : Nat) (cs : List Config) (seen : List Nat),
      (∃ c ∈ cs, c.alt = alt) ∨ alt ∈ seen →
      alt ∈ cs.foldl (fun s c => if s.contains c.alt then s else c.alt :: s) seen := by
    intro alt cs
    induction cs with
    | nil => simp
    | cons d cs ih =>
      intro seen h
      rw [List.foldl_cons]
      refine ih _ ?_
      simp only [List.mem_cons, exists_eq_or_imp, or_assoc] at h
      rcases h with rfl | h | h
      · refine .inr ?_
        split
        · rename_i hseen
          simpa using hseen
        · exact List.mem_cons_self
      · exact .inl h
      · refine .inr ?_
        split
        · exact h
        · exact List.mem_cons_of_mem _ h
  rw [alts, List.mem_mergeSort]
  exact hseen c.alt cs [] (.inl ⟨c, h, rfl⟩)

theorem head_alts_le (h : (alts cs).head? = some alt) {c : Config} (hc : c ∈ cs) : alt ≤ c.alt := by
  have hsorted : (alts cs).Pairwise fun a b => decide (a ≤ b) = true :=
    List.pairwise_mergeSort (by simp; omega) (by simp; omega) _
  have hmem := alt_mem_alts hc
  obtain ⟨rest, hrest⟩ := List.head?_eq_some_iff.mp h
  rw [hrest] at hsorted hmem
  rcases List.mem_cons.mp hmem with heq | hmem
  · exact Nat.le_of_eq heq.symm
  · simpa using (List.pairwise_cons.mp hsorted).1 _ hmem

/-- Without a token that can be read, the smallest choice at an end is taken. -/
theorem of_fallback (hcs : ∀ c ∈ cs, c.Settled t) (h : fallback t level cs = some alt) :
    Shows t false cs alt .ended ∧ ∀ b, Shows t false cs b .ended → alt ≤ b := by
  have hvalid : cs.filter (fun c => passes level c.guard) = cs :=
    List.filter_eq_self.mpr fun c hc => by rw [(hcs c hc).unguarded]; rfl
  have hinvalid : cs.filter (fun c => !passes level c.guard) = [] :=
    List.filter_eq_nil_iff.mpr fun c hc => by
      rw [(hcs c hc).unguarded]
      exact Bool.false_ne_true
  have hstops : cs.filter (fun c => c.dipped || (atStop t c && c.stack.ends)) =
      cs.filter (atStop t) := by
    refine List.filter_congr fun c hc => ?_
    rw [(hcs c hc).inside, Bool.false_or]
    rcases (hcs c hc).place with ⟨_, _, hedge⟩ | ⟨_, hroot⟩
    · rw [atStop, hedge, Bool.false_and]
    · rw [(Stack.isRoot_iff.mp hroot).1, Bool.and_true]
  have hhead : (alts (cs.filter (atStop t))).head? = some alt := by
    have hnone : finished t [] = none := by simp [finished, alts]
    have hpart : (cs.partition fun c => passes level c.guard) = (cs, []) := by
      rw [List.partition_eq_filter_filter, hvalid]
      exact congrArg (Prod.mk cs) hinvalid
    rw [fallback, hpart] at h
    dsimp only at h
    rwa [hnone, Option.or_none, finished, hstops] at h
  refine ⟨(shows_ended hcs).mpr (mem_alts (List.mem_of_mem_head? hhead)), fun b hb => ?_⟩
  obtain ⟨c, hc, rfl⟩ := (shows_ended hcs).mp hb
  exact head_alts_le hhead hc

section

variable {κ : Type} [BEq κ] [Hashable κ] (key : Config → κ)

theorem exists_foldl_groups {f : Std.HashMap κ (List Nat) → Config → Std.HashMap κ (List Nat)}
    (hf : ∀ m c x, (∃ as, (f m c)[x]? = some as ∧ alt ∈ as) ↔
      (∃ as, m[x]? = some as ∧ alt ∈ as) ∨ key c = x ∧ c.alt = alt)
    (m : Std.HashMap κ (List Nat)) (x : κ) :
    (∃ as, (cs.foldl f m)[x]? = some as ∧ alt ∈ as) ↔
      (∃ as, m[x]? = some as ∧ alt ∈ as) ∨ ∃ c ∈ cs, key c = x ∧ c.alt = alt := by
  induction cs generalizing m with
  | nil => simp
  | cons c cs ih =>
    rw [List.foldl_cons, ih, hf]
    simp only [List.mem_cons, exists_eq_or_imp, or_assoc]

variable [LawfulBEq κ]

theorem exists_group_of {m : Std.HashMap κ (List Nat)} {c : Config} (hc : c ∈ cs)
    (hm : ∀ a x, (∃ as, m[x]? = some as ∧ a ∈ as) ↔ ∃ d ∈ cs, key d = x ∧ d.alt = a) :
    ∃ as ∈ m.toList.map Prod.snd, c.alt ∈ as ∧ ∀ a ∈ as, ∃ d ∈ cs, key d = key c ∧ d.alt = a := by
  obtain ⟨as, has, halt⟩ := (hm c.alt (key c)).mpr ⟨c, hc, rfl, rfl⟩
  refine ⟨as, List.mem_map.mpr ⟨(key c, as), ?_, rfl⟩, halt, fun a ha => ?_⟩
  · exact Std.HashMap.mem_toList_iff_getElem?_eq_some.mpr has
  · exact (hm a (key c)).mp ⟨as, has, ha⟩

/-- The choices of all configurations with one key are grouped together. -/
theorem exists_group {c : Config} (hc : c ∈ cs) : ∃ as ∈ groupAlts key cs, c.alt ∈ as ∧
    ∀ a ∈ as, ∃ d ∈ cs, key d = key c ∧ d.alt = a := by
  refine exists_group_of key hc fun a x =>
    (exists_foldl_groups key (fun m d x => ?_) {} x).trans (by simp)
  simp only [Std.HashMap.getElem?_alter]
  by_cases hx : key d = x
  · subst hx
    simp only [BEq.rfl, if_true, true_and]
    cases m[key d]? with
    | none => simp [eq_comm]
    | some as =>
      simp only [Option.some.injEq, exists_eq_left']
      split
      · rename_i hseen
        have hmem : d.alt ∈ as := by simpa using hseen
        exact ⟨.inl, fun h => h.elim id fun heq => heq ▸ hmem⟩
      · rw [List.mem_cons, or_comm, eq_comm]
  · simp [hx]

end

/-- What a set decides is the smallest choice at every place of the set. -/
theorem of_resolve (h : resolve cs = some alt) : ∀ c ∈ cs, alt ≤ c.alt ∧
    ∃ d ∈ cs, d.alt = alt ∧ d.site = c.site ∧ d.stack = c.stack := by
  intro c hc
  rw [resolve] at h
  split at h
  · rename_i found hfound
    cases h
    have hall := (unique_eq_some.mp hfound).2 c hc
    exact ⟨Nat.le_of_eq hall.symm, c, hc, hall, rfl, rfl⟩
  · obtain ⟨as, has, halt, hgroup⟩ := exists_group (fun c => (c.site, c.stack)) hc
    obtain ⟨least, hleast⟩ := Option.isSome_iff_exists.mp (List.isSome_min?_of_mem halt)
    have hmem := List.mem_filterMap.mpr ⟨as, has, hleast⟩
    split at h
    · rename_i hnil
      rw [hnil] at hmem
      cases hmem
    · rename_i m ms hms
      split at h
      · rename_i hall
        cases h
        have heq : least = alt := by
          rw [hms] at hmem
          rcases List.mem_cons.mp hmem with heq | hmem
          · exact heq
          · simpa using List.all_eq_true.mp hall _ hmem
        subst heq
        obtain ⟨d, hd, hkey, hdalt⟩ := hgroup _ (List.min?_mem hleast)
        exact ⟨(List.min?_eq_some_iff.mp hleast).2 _ halt, d, hd, hdalt, Prod.mk.inj hkey⟩
      · cases h

/-- One token of a lookahead with known callers. -/
theorem withCallers_cons {last tk : Token} {rest : List Token}
    (h : (withCallers t level cs last (tk :: rest)).1 = .choose alt) :
    step t false cs tk.kind = [] ∧ fallback t level cs = some alt ∨
      step t false cs tk.kind ≠ [] ∧ (resolve (step t false cs tk.kind) = some alt ∨
        resolve (step t false cs tk.kind) = none ∧
          (withCallers t level (step t false cs tk.kind) tk rest).1 = .choose alt) := by
  rw [withCallers] at h
  split at h
  · rename_i hempty
    split at h
    · rename_i found hfound
      cases h
      exact .inl ⟨List.isEmpty_iff.mp hempty, hfound⟩
    · cases h
  · rename_i hempty
    refine .inr ⟨fun hnil => hempty (List.isEmpty_iff.mpr hnil), ?_⟩
    split at h
    · rename_i found hfound
      cases h
      exact .inl hfound
    · rename_i hnone
      exact .inr ⟨hnone, h⟩

/-! ## Profiles of two choices -/

/-- The number of one of two choices. -/
def Binary (b : Nat) : Prop := 1 ≤ b ∧ b ≤ 2

/-- The second choice sees nothing that the first one does not see. -/
def Dominated (φ : Nat → Sight → Prop) : Prop := ∀ w, φ 2 w → φ 1 w

/-- The first choice sees the same in both profiles, and in the first profile the second choice sees all
that either choice sees in the second profile, up to the kind of the next token. -/
structure Widens (k : Kind) (φ ψ : Nat → Sight → Prop) : Prop where
  first : ∀ w, w.Begins k → (φ 1 w ↔ ψ 1 w)
  second : ∀ w, w.Begins k → (φ 2 w ↔ ψ 1 w ∨ ψ 2 w)

section

variable {φ ψ : Nat → Sight → Prop} (hφ : ∀ b w, φ b w → Binary b) (hψ : ∀ b w, ψ b w → Binary b)

include hφ in
theorem exists_binary {w : Sight} : (∃ b, φ b w) ↔ φ 1 w ∨ φ 2 w := by
  constructor
  · rintro ⟨b, hb⟩
    have hbinary := hφ b w hb
    rcases show b = 1 ∨ b = 2 by unfold Binary at hbinary; omega with rfl | rfl
    · exact .inl hb
    · exact .inr hb
  · exact fun h => h.elim (fun h => ⟨1, h⟩) fun h => ⟨2, h⟩

include hφ hψ

theorem Widens.exists_iff (h : Widens k φ ψ) {w : Sight} (hw : w.Begins k) :
    (∃ b, φ b w) ↔ ∃ b, ψ b w := by
  rw [exists_binary hφ, exists_binary hψ, h.first w hw, h.second w hw, ← or_assoc, or_self]

/-- Behind the token the one profile is wider for every token. -/
theorem Widens.next (h : Widens k φ ψ) (k' : Kind) : Widens k' (Next φ k) (Next ψ k) := by
  have hidle : (∀ b, ¬ φ b (.after k .ended)) ↔ ∀ b, ¬ ψ b (.after k .ended) := by
    rw [← not_exists, ← not_exists, h.exists_iff hφ hψ (w := .after k .ended) rfl]
  refine ⟨fun w _ => ?_, fun w _ => ?_⟩
  · rw [Next, Next, h.first (.after k w) rfl, h.first .ended trivial, hidle]
  · rw [Next, Next, Next, h.second (.after k w) rfl, h.second .ended trivial, hidle]
    simp only [or_and_right, and_or_left]
    exact or_or_or_comm

/-- A choice that is forced in both profiles. -/
theorem Widens.forced_second (h : Widens k φ ψ) (hforced : Forced φ k 2) : Forced ψ k 2 := by
  have hfirst : ¬ ψ 1 (.reads k) := by
    rw [← h.first (.reads k) rfl, hforced.reads]
    decide
  have hsecond := (h.second (.reads k) rfl).mp ((hforced.reads 2).mpr rfl)
  refine ⟨hforced.token, fun b hb => ?_, fun b => ⟨fun hb => ?_, ?_⟩⟩
  · obtain ⟨c, hc⟩ := (h.exists_iff hφ hψ (w := .ended) trivial).mpr ⟨b, hb⟩
    exact hforced.unfinished c hc
  · have hbinary := hψ b _ hb
    rcases show b = 1 ∨ b = 2 by unfold Binary at hbinary; omega with rfl | rfl
    · exact absurd hb hfirst
    · rfl
  · rintro rfl
    exact hsecond.resolve_left hfirst

/-- Where the first choice is forced in the narrower profile, none is in the wider one, and from there on
its first choice sees all that its second one does. -/
theorem Widens.forced_first (h : Widens k φ ψ) (hforced : Forced ψ k 1)
    (hreads : ∀ w, ψ 2 (.after k w) → ψ 2 (.reads k)) :
    (∀ b, ¬ φ b .ended) ∧ (∀ alt, ¬ Forced φ k alt) ∧ Dominated (Next φ k) := by
  have hfirst : ψ 1 (.reads k) := (hforced.reads 1).mpr rfl
  have hsecond : ¬ ψ 2 (.reads k) := by
    rw [hforced.reads]
    decide
  have hopen : ∀ b, ¬ φ b .ended := by
    intro b hb
    obtain ⟨c, hc⟩ := (h.exists_iff hφ hψ (w := .ended) trivial).mp ⟨b, hb⟩
    exact hforced.unfinished c hc
  refine ⟨hopen, fun alt hforced' => ?_, fun w hw => ?_⟩
  · have hone := (hforced'.reads 1).mp ((h.first (.reads k) rfl).mpr hfirst)
    have htwo := (hforced'.reads 2).mp ((h.second (.reads k) rfl).mpr (.inl hfirst))
    omega
  · rcases hw with ⟨hw, hend⟩ | ⟨_, hended, _⟩
    · refine .inl ⟨(h.first (.after k w) rfl).mpr ?_, hend⟩
      exact ((h.second (.after k w) rfl).mp hw).resolve_right fun hw => hsecond (hreads w hw)
    · exact absurd hended (hopen 2)

end

/-! ## Runs -/

theorem shows_binary (hcs : ∀ c ∈ cs, c.Within Binary) (b : Nat) (w : Sight)
    (h : Shows t false cs b w) : Binary b := by
  obtain ⟨c, hc, rfl, _⟩ := h
  exact hcs c hc

theorem exists_shows (ht : t.Regular) (hcs : ∀ c ∈ cs, c.Settled t) {c : Config} (hc : c ∈ cs) :
    ∃ w, Shows t false cs c.alt w := by
  obtain ⟨w, hw⟩ := (hcs c hc).exists_sees ht
  exact ⟨w, shows_false.mpr ⟨c, hc, rfl, hw⟩⟩

theorem ne_nil_of_shows {w : Sight} (h : Shows t false cs alt w) : cs ≠ [] := by
  obtain ⟨c, hc, _⟩ := h
  exact List.ne_nil_of_mem hc

/-- A set that decides for a choice shows nothing to any choice that it does not show to this one. -/
theorem shows_of_resolve {w : Sight} {b : Nat} (h : resolve cs = some alt)
    (hw : Shows t false cs b w) : Shows t false cs alt w := by
  obtain ⟨c, hc, _, σ, hσ, hs⟩ := shows_false.mp hw
  obtain ⟨d, hd, halt, hsite, hstack⟩ := (of_resolve h c hc).2
  exact shows_false.mpr ⟨d, hd, halt, σ, hstack ▸ hσ, hsite ▸ hs⟩

/-- A choice that is forced is the outcome. -/
theorem eq_of_forced {b : Nat} {last tk : Token} {rest : List Token}
    (hcs : ∀ c ∈ cs, c.Settled t) (hforced : Forced (Shows t false cs) tk.kind b)
    (h : (withCallers t level cs last (tk :: rest)).1 = .choose alt) : b = alt := by
  have hunique := unique_step hcs hforced
  have hresolve : resolve (step t false cs tk.kind) = some b := by rw [resolve, hunique]
  rcases withCallers_cons h with ⟨hnil, _⟩ | ⟨_, hsome | ⟨hnone, _⟩⟩
  · exact absurd hnil (unique_eq_some.mp hunique).1
  · exact Option.some.inj (hresolve.symm.trans hsome)
  · cases hresolve.symm.trans hnone

section

variable (ht : t.Regular)

include ht

theorem resolve_ne_second (hcs : ∀ c ∈ cs, c.Settled t) (hdom : Dominated (Shows t false cs))
    (hne : cs ≠ []) : resolve cs ≠ some 2 := by
  intro h
  obtain ⟨c, hc⟩ := List.exists_mem_of_ne_nil _ hne
  obtain ⟨w, hw⟩ := exists_shows ht hcs hc
  obtain ⟨d, hd, hdalt, _⟩ := hdom w (shows_of_resolve h hw)
  have hle := (of_resolve h d hd).1
  omega

/-- A lookahead whose first choice sees all that the second one does never ends with the second. -/
theorem withCallers_ne_second {last : Token} {ahead : List Token} (hcs : ∀ c ∈ cs, c.Settled t)
    (hdom : Dominated (Shows t false cs)) :
    (withCallers t level cs last ahead).1 ≠ .choose 2 := by
  induction ahead generalizing cs last with
  | nil => exact Outcome.noConfusion
  | cons tk rest ih =>
    intro h
    by_cases hforced : ∃ alt, Forced (Shows t false cs) tk.kind alt
    · obtain ⟨alt, hforced⟩ := hforced
      have halt : alt = 2 := eq_of_forced hcs hforced h
      subst halt
      have hone := (hforced.reads 1).mp (hdom _ ((hforced.reads 2).mpr rfl))
      omega
    · obtain ⟨hsettled, hnext⟩ := settled_step ht hcs fun alt h => hforced ⟨alt, h⟩
      have hdom' : Dominated (Shows t false (step t false cs tk.kind)) := by
        intro w hw
        rw [hnext] at hw ⊢
        exact hw.imp (fun h => ⟨hdom _ h.1, h.2⟩) fun h => ⟨h.1, hdom _ h.2.1, h.2.2⟩
      rcases withCallers_cons h with ⟨_, hfallback⟩ | ⟨hne, htwo | ⟨_, hrest⟩⟩
      · obtain ⟨hended, hleast⟩ := of_fallback hcs hfallback
        have hle := hleast 1 (hdom _ hended)
        omega
      · exact resolve_ne_second ht hsettled hdom' hne htwo
      · exact ih hsettled hdom' hrest

section

variable {ds : List Config} {level' : Nat} {last last' tk : Token} {rest : List Token}
  (hcs : ∀ c ∈ cs, c.Settled t) (hds : ∀ c ∈ ds, c.Settled t)
  (hcs₂ : ∀ c ∈ cs, c.Within Binary) (hds₂ : ∀ c ∈ ds, c.Within Binary)

include hcs hds hcs₂ hds₂

/-- If the wider of two lookaheads ends with its second choice and the narrower one with its first, they
do so after one more token as well. -/
theorem rivals_step (hwide : Widens tk.kind (Shows t false cs) (Shows t false ds))
    (hnarrow : (withCallers t level' ds last' (tk :: rest)).1 = .choose 1)
    (h : (withCallers t level cs last (tk :: rest)).1 = .choose 2) :
    (∀ c ∈ step t false cs tk.kind, c.Settled t) ∧ (∀ c ∈ step t false ds tk.kind, c.Settled t) ∧
      (∀ k, Widens k (Shows t false (step t false cs tk.kind))
        (Shows t false (step t false ds tk.kind))) ∧
      (withCallers t level' (step t false ds tk.kind) tk rest).1 = .choose 1 ∧
      (withCallers t level (step t false cs tk.kind) tk rest).1 = .choose 2 := by
  have hφ := shows_binary (t := t) hcs₂
  have hψ := shows_binary (t := t) hds₂
  by_cases hforced : ∃ alt, Forced (Shows t false ds) tk.kind alt
  · obtain ⟨alt, hforced⟩ := hforced
    have halt : alt = 1 := eq_of_forced hds hforced hnarrow
    subst halt
    obtain ⟨hopen, hfree, hdom⟩ := hwide.forced_first hφ hψ hforced fun w => shows_reads_of_after hds
    obtain ⟨hsettled, hnext⟩ := settled_step ht hcs hfree
    have hdom' : Dominated (Shows t false (step t false cs tk.kind)) := by
      intro w hw
      rw [hnext] at hw ⊢
      exact hdom w hw
    rcases withCallers_cons h with ⟨_, hfallback⟩ | ⟨hne, htwo | ⟨_, hrest⟩⟩
    · exact absurd (of_fallback hcs hfallback).1 (hopen 2)
    · exact absurd htwo (resolve_ne_second ht hsettled hdom' hne)
    · exact absurd hrest (withCallers_ne_second ht hsettled hdom')
  by_cases hforced' : ∃ alt, Forced (Shows t false cs) tk.kind alt
  · obtain ⟨alt, hforced'⟩ := hforced'
    have halt : alt = 2 := eq_of_forced hcs hforced' h
    subst halt
    exact absurd ⟨2, hwide.forced_second hφ hψ hforced'⟩ hforced
  obtain ⟨hsettled, hnext⟩ := settled_step ht hcs fun alt h => hforced' ⟨alt, h⟩
  obtain ⟨hsettled', hnext'⟩ := settled_step ht hds fun alt h => hforced ⟨alt, h⟩
  have hwide' : ∀ k, Widens k (Shows t false (step t false cs tk.kind))
      (Shows t false (step t false ds tk.kind)) := by
    intro k
    have hbehind := hwide.next hφ hψ k
    refine ⟨fun w hw => ?_, fun w hw => ?_⟩
    · rw [hnext, hnext']
      exact hbehind.first w hw
    · rw [hnext, hnext', hnext']
      exact hbehind.second w hw
  have hbinary := within_step (t := t) hcs₂ false tk.kind
  have hbinary' := within_step (t := t) hds₂ false tk.kind
  have hfirst := fun w : Sight => (hwide' w.first).first w w.begins_first
  have hsecond := fun w : Sight => (hwide' w.first).second w w.begins_first
  have hboth := fun w : Sight => (hwide' w.first).exists_iff (shows_binary hbinary)
    (shows_binary hbinary') w.begins_first
  rcases withCallers_cons hnarrow with ⟨hnil, hfallback⟩ | ⟨hne, hnarrow⟩
  · rcases withCallers_cons h with ⟨_, hfallback'⟩ | ⟨hne, _⟩
    · have hended := (hwide.first .ended trivial).mpr (of_fallback hds hfallback).1
      have hle := (of_fallback hcs hfallback').2 1 hended
      omega
    · obtain ⟨c, hc⟩ := List.exists_mem_of_ne_nil _ hne
      obtain ⟨w, hw⟩ := exists_shows ht hsettled hc
      obtain ⟨b, hb⟩ := (hboth w).mp ⟨_, hw⟩
      exact absurd hnil (ne_nil_of_shows hb)
  rcases withCallers_cons h with ⟨hnil, _⟩ | ⟨_, htwo | ⟨hnone, hrest⟩⟩
  · obtain ⟨c, hc⟩ := List.exists_mem_of_ne_nil _ hne
    obtain ⟨w, hw⟩ := exists_shows ht hsettled' hc
    obtain ⟨b, hb⟩ := (hboth w).mpr ⟨_, hw⟩
    exact absurd hnil (ne_nil_of_shows hb)
  · -- With the second choice alone in the wider set, it is alone in the narrower one too.
    have hlone : ∀ c ∈ step t false ds tk.kind, c.alt = 2 := by
      intro c hc
      obtain ⟨w, hw⟩ := exists_shows ht hsettled' hc
      have halt : Binary c.alt := hbinary' c hc
      by_contra hne
      have hone : c.alt = 1 := by
        unfold Binary at halt
        omega
      rw [hone] at hw
      obtain ⟨d, hd, hdalt, _⟩ := (hfirst w).mpr hw
      have hle := (of_resolve htwo d hd).1
      omega
    have hresolve : resolve (step t false ds tk.kind) = some 2 := by
      rw [resolve, unique_eq_some.mpr ⟨hne, hlone⟩]
    rcases hnarrow with hone | ⟨hnone, _⟩
    · cases hresolve.symm.trans hone
    · cases hresolve.symm.trans hnone
  · rcases hnarrow with hone | ⟨_, hrest'⟩
    · have hdom : Dominated (Shows t false (step t false cs tk.kind)) := by
        intro w hw
        refine (hfirst w).mpr (((hsecond w).mp hw).elim id (shows_of_resolve hone))
      exact absurd hrest (withCallers_ne_second ht hsettled hdom)
    · exact ⟨hsettled, hsettled', hwide', hrest', hrest⟩

/-- Of two lookaheads along the same tokens the wider one does not end with its second choice if the
narrower one ends with its first. -/
theorem withCallers_ne_second_of_widens
    (hwide : Widens tk.kind (Shows t false cs) (Shows t false ds))
    (hnarrow : (withCallers t level' ds last' (tk :: rest)).1 = .choose 1) :
    (withCallers t level cs last (tk :: rest)).1 ≠ .choose 2 := by
  intro h
  induction rest generalizing cs ds last last' tk with
  | nil =>
    obtain ⟨_, _, _, _, hend⟩ := rivals_step ht hcs hds hcs₂ hds₂ hwide hnarrow h
    cases hend
  | cons tk' rest ih =>
    obtain ⟨hsettled, hsettled', hwide', hnarrow', h'⟩ :=
      rivals_step ht hcs hds hcs₂ hds₂ hwide hnarrow h
    exact ih hsettled hsettled' (within_step hcs₂ false _) (within_step hds₂ false _)
      (hwide' tk'.kind) hnarrow' h'

end

end

end Lookahead

end Callscope
