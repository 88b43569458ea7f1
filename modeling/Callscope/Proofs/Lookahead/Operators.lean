import Callscope.Proofs.Lookahead.Levels
import Callscope.Proofs.Lookahead.Profile

/-!
# The loop of operators of a rule

A rule with operators ends in a loop. Here is what the network of a grammar has at the sites of such a
loop: each operator begins with its level and then a token, the operand that ends an operator returns to
the loop, and the loop is left only where its rule ends.
-/

namespace Callscope

namespace Item

mutual

/-- The item begins with a token, whatever is chosen in it. -/
def upfront : Item → Bool
  | terminal .. | terminalOf .. => true
  | branch _ alts => upfrontAlts alts
  | call .. | loop .. | loopOnce .. | climb .. => false

def upfrontAll : List Item → Bool
  | [] => false
  | i :: _ => upfront i

def upfrontAlts : List (List Item) → Bool
  | [] => true
  | a :: as => upfrontAll a && upfrontAlts as

end

variable {t : Tables}

open Network Tables

mutual

theorem fronted_site (i : Item) (next : Nat) (shared : Bool) (h : upfront i = true)
    (hedges : ∀ x ∈ edges next shared i, t.edge x.1 = x.2) :
    t.Fronted false i.site ∧
      ∀ g x, t.Fronts i.site g x → ∃ kinds n, t.edge x = .terminal kinds n := by
  cases i with
  | terminal s k l =>
    have hedge := hedges _ List.mem_cons_self
    refine ⟨.token hedge, fun g x hx => ?_⟩
    rw [((fronts_token hedge).mp hx).2]
    exact ⟨_, _, hedge⟩
  | terminalOf s ks l =>
    have hedge := hedges _ List.mem_cons_self
    refine ⟨.token hedge, fun g x hx => ?_⟩
    rw [((fronts_token hedge).mp hx).2]
    exact ⟨_, _, hedge⟩
  | branch s alts =>
    have hedge := hedges _ List.mem_cons_self
    have halts := fronted_alts alts (s + 1) h fun x hx =>
      hedges x (List.mem_cons_of_mem _ (List.mem_cons_of_mem _ hx))
    refine ⟨.fork hedge fun n hn => ?_, fun g x hx => ?_⟩
    · obtain ⟨a, ha, rfl⟩ := List.mem_map.mp hn
      exact (halts a ha).1
    · obtain ⟨n, hn, hx⟩ := (fronts_fork hedge).mp hx
      obtain ⟨a, ha, rfl⟩ := List.mem_map.mp hn
      exact (halts a ha).2 g x hx
  | call | loop | loopOnce | climb => cases h

theorem fronted_entry (is : List Item) (next : Nat) (shared : Bool) (h : upfrontAll is = true)
    (hedges : ∀ x ∈ edgesAll next shared is, t.edge x.1 = x.2) :
    t.Fronted false (entry next is) ∧
      ∀ g x, t.Fronts (entry next is) g x → ∃ kinds n, t.edge x = .terminal kinds n := by
  cases is with
  | nil => cases h
  | cons i is =>
    obtain ⟨sh, sh', heq⟩ := edgesAll_cons next shared i is
    rw [heq] at hedges
    exact fronted_site i _ sh h fun x hx => hedges x (List.mem_append_left _ hx)

theorem fronted_alts (alts : List (List Item)) (next : Nat) (h : upfrontAlts alts = true)
    (hedges : ∀ x ∈ edgesAlts next alts, t.edge x.1 = x.2) : ∀ a ∈ alts,
    t.Fronted false (entry next a) ∧
      ∀ g x, t.Fronts (entry next a) g x → ∃ kinds n, t.edge x = .terminal kinds n := by
  cases alts with
  | nil => simp
  | cons a alts =>
    rw [upfrontAlts, Bool.and_eq_true] at h
    refine List.forall_mem_cons.mpr ⟨?_, ?_⟩
    · exact fronted_entry a next true h.1 fun x hx => hedges x (List.mem_append_left _ hx)
    · exact fronted_alts alts next h.2 fun x hx => hedges x (List.mem_append_right _ hx)

end

mutual

/-- How an item that begins with a token can begin does not depend on the rules. -/
theorem look_of_upfront (first first' : Rule → Look) (i : Item) (h : upfront i = true) :
    Look.ofItem first i = Look.ofItem first' i ∧ (Look.ofItem first i).ends = false := by
  cases i with
  | terminal | terminalOf => exact ⟨rfl, rfl⟩
  | branch s alts => exact looks_of_upfrontAlts first first' alts h
  | call | loop | loopOnce | climb => cases h

theorem looks_of_upfront (first first' : Rule → Look) (is : List Item) (h : upfrontAll is = true) :
    Look.ofItems first is = Look.ofItems first' is ∧ (Look.ofItems first is).ends = false := by
  cases is with
  | nil => cases h
  | cons i is =>
    obtain ⟨heq, hends⟩ := look_of_upfront first first' i h
    rw [Look.ofItems, Look.ofItems, Look.andThen_of_not_ends hends, ← heq,
      Look.andThen_of_not_ends hends]
    exact ⟨rfl, hends⟩

theorem looks_of_upfrontAlts (first first' : Rule → Look) (alts : List (List Item))
    (h : upfrontAlts alts = true) :
    Look.ofAlts first alts = Look.ofAlts first' alts ∧ (Look.ofAlts first alts).ends = false := by
  cases alts with
  | nil => exact ⟨rfl, rfl⟩
  | cons a alts =>
    rw [upfrontAlts, Bool.and_eq_true] at h
    obtain ⟨heq, hends⟩ := looks_of_upfront first first' a h.1
    obtain ⟨heq', hends'⟩ := looks_of_upfrontAlts first first' alts h.2
    rw [Look.ofAlts, Look.ofAlts, heq, heq']
    rw [heq] at hends
    rw [heq'] at hends'
    exact ⟨rfl, by rw [Look.or]; simp [hends, hends']⟩

end

end Item

namespace Network

variable {x : Nat × Edge}

/-- The edges of the last item are among those of a list. -/
theorem exists_edges_last (next : Nat) (shared : Bool) (init : List Item) (i : Item) :
    ∃ sh, ∀ x ∈ edges next sh i, x ∈ edgesAll next shared (init ++ [i]) := by
  induction init generalizing shared with
  | nil => exact ⟨shared, fun x hx => hx⟩
  | cons j init ih =>
    obtain ⟨sh, sh', heq⟩ := edgesAll_cons next shared j (init ++ [i])
    obtain ⟨sh'', hlast⟩ := ih sh'
    refine ⟨sh'', fun x hx => ?_⟩
    rw [List.cons_append, heq]
    exact List.mem_append_right _ (hlast x hx)

theorem guard_mem_edgesOps {next : Nat} {ops : List (Nat × List Item)} {op : Nat × List Item}
    (hop : op ∈ ops) :
    (Item.guardSite op.2, .guard op.1 (Item.entry next op.2)) ∈ edgesOps next ops := by
  induction ops with
  | nil => cases hop
  | cons o ops ih =>
    obtain ⟨v, a⟩ := o
    rw [edgesOps]
    rcases List.mem_cons.mp hop with rfl | hop
    · exact List.mem_append_left _ List.mem_cons_self
    · exact List.mem_append_right _ (ih hop)

end Network

namespace Tables

variable {t : Tables} {p : Pace} {L finish x : Nat} {ops : List (Nat × List Item)} {g : Option Nat}

/-- What is in front of a site can come there. -/
theorem Fronts.look_below (hsound : ∀ s, (t.edge s).Sound t s) {s : Nat} (h : t.Fronts s g x) :
    (t.look x).Below (t.look s) := by
  induction h with
  | token | stop => exact .refl _
  | @fork s n x nexts g h hn _ ih =>
    exact ih.trans ((hsound s).below_ways (by rw [h]; exact hn))
  | @guard s n x level h _ ih =>
    exact ih.trans ((hsound s).below_ways (by rw [h]; exact List.mem_singleton.mpr rfl))

section

variable {shared : Bool}
  (hedges : ∀ x ∈ Network.edges finish shared (.climb L ops), t.edge x.1 = x.2)

include hedges

theorem edge_climb : t.edge L = .climb (L + 2) finish := hedges (L, _) List.mem_cons_self

theorem edge_again : t.edge (L + 1) = .jump L :=
  hedges (L + 1, _) (List.mem_cons_of_mem _ List.mem_cons_self)

theorem edge_which : t.edge (L + 2) = .fork (ops.map fun op => Item.guardSite op.2) :=
  hedges (L + 2, _) (List.mem_cons_of_mem _ (List.mem_cons_of_mem _ List.mem_cons_self))

theorem edge_guard {op : Nat × List Item} (hop : op ∈ ops) :
    t.edge (Item.guardSite op.2) = .guard op.1 (Item.entry (L + 1) op.2) :=
  hedges _ (List.mem_cons_of_mem _ (List.mem_cons_of_mem _
    (List.mem_cons_of_mem _ (Network.guard_mem_edgesOps hop))))

theorem edge_operator {op : Nat × List Item} (hop : op ∈ ops) :
    ∀ x ∈ Network.edgesAll (L + 1) true op.2, t.edge x.1 = x.2 :=
  fun x hx => hedges x (List.mem_cons_of_mem _ (List.mem_cons_of_mem _
    (List.mem_cons_of_mem _ (Network.mem_edgesOps hop hx))))

/-- What is in front of the operators is in front of one of them, with its level. -/
theorem fronts_which (h : t.Fronts (L + 2) g x) : ∃ op ∈ ops,
    g = some op.1 ∧ t.Fronts (Item.guardSite op.2) g x ∧ t.Fronts (Item.entry (L + 1) op.2) none x := by
  obtain ⟨n, hn, hx⟩ := (fronts_fork (edge_which hedges)).mp h
  obtain ⟨op, hop, rfl⟩ := List.mem_map.mp hn
  obtain ⟨hg, hentry⟩ := (fronts_guard (edge_guard hedges hop)).mp hx
  exact ⟨op, hop, hg, hx, hentry⟩

theorem fronted_which (hupfront : ∀ op ∈ ops, Item.upfrontAll op.2 = true) :
    t.Fronted true (L + 2) := by
  refine .fork (edge_which hedges) fun n hn => ?_
  obtain ⟨op, hop, rfl⟩ := List.mem_map.mp hn
  exact .guard (edge_guard hedges hop)
    (Item.fronted_entry op.2 _ true (hupfront op hop) (edge_operator hedges hop)).1

theorem token_which (hupfront : ∀ op ∈ ops, Item.upfrontAll op.2 = true)
    (h : t.Fronts (L + 2) g x) : ∃ kinds next, t.edge x = .terminal kinds next := by
  obtain ⟨op, hop, _, _, hentry⟩ := fronts_which hedges h
  exact (Item.fronted_entry op.2 _ true (hupfront op hop) (edge_operator hedges hop)).2 none x hentry

/-- The operand that ends an operator returns to the loop. -/
theorem leads_returnSite {op : Nat × List Item} (hop : op ∈ ops) {init : List Item} {s q : Nat}
    {r : Rule} {l : Option Label} (hlast : op.2 = init ++ [.call s r q l]) :
    Scope.leads t L 4 (t.returnSite s) = true := by
  obtain ⟨sh, hin⟩ := Network.exists_edges_last (L + 1) true init (.call s r q l)
  rw [← hlast] at hin
  have hcall := edge_operator hedges hop _ (hin _ List.mem_cons_self)
  have hafter := edge_operator hedges hop _ (hin (s + 1, _) (List.mem_cons_of_mem _ List.mem_cons_self))
  have hagain := edge_again hedges
  dsimp only at hcall hafter
  rw [returnSite, hcall]
  cases sh with
  | true => simp [Scope.leads, hagain]
  | false => simp [Scope.leads, hafter, hagain]

/-- The levels at which every operator with a token may be taken. -/
theorem permits_which (hsound : ∀ s, (t.edge s).Sound t s) {after l : Look}
    (hlaid : Item.Climbs t p after l L ops) {k : Kind} {level : Nat}
    (hlevels : ∀ op ∈ ops, (Look.ofItems t.first op.2).kinds.contains k = true → level ≤ op.1) :
    t.Permits (L + 2) k level := by
  intro g x kinds next hx hedge hk
  obtain ⟨op, hop, rfl, hguard, _⟩ := fronts_which hedges hx
  have hsite := hsound x
  rw [hedge, Edge.Sound] at hsite
  have hlook := (hguard.look_below hsound).1 k (hsite.1 k hk)
  rw [look_of_getElem? (hlaid.operator op hop).guard] at hlook
  exact decide_eq_true (hlevels op hop hlook)

/-- The decision of the loop. -/
theorem grows_which {after l : Look} (hlaid : Item.Climbs t p after l L ops)
    (hupfront : ∀ op ∈ ops, Item.upfrontAll op.2 = true) {r : Rule}
    (hstop : t.edge finish = .stop r) {d : Decision} (hnexts : d.nexts = [L + 2, finish])
    (hclimbs : d.climbs = true) : d.Grows t (L + 2) finish := by
  refine ⟨hnexts, hclimbs, fronted_which hedges hupfront, fun g x => token_which hedges hupfront, ?_,
    r, hstop⟩
  rw [look_of_getElem? hlaid.which]
  exact Look.ofOps_not_ends fun op hop => (Item.begins_iff.mp (hlaid.operator op hop).begins).1

end

end Tables

/-! ## Regular networks -/

namespace Edge

def ends : Edge → Bool
  | stop _ => true
  | _ => false

/-- The edge is no end and stays in a range of sites. -/
def keeps (site bound : Nat) (e : Edge) : Bool :=
  !e.ends && e.nexts.all fun n => decide (site ≤ n ∧ n < bound)

/-- A token has a kind, and a loop of operators ends its rule: all sites from the loop to the next rule
are its own. -/
def regular (rules : List (Rule × Numbered)) (s : Nat) : Edge → Bool
  | terminal kinds _ => Kind.all.any kinds.contains
  | climb operator finish =>
    let bound := ((rules.map fun r => r.2.start).find? fun n => decide (s < n)).getD 0
    decide (s ≤ operator ∧ operator < bound) &&
      (Tables.edgesOf rules).any (fun x => x.2.1 == finish && x.2.2.ends) &&
      (Tables.edgesOf rules).all fun x =>
        !decide (s < x.2.1 ∧ x.2.1 < bound) || x.2.2.keeps s bound
  | _ => true

theorem ends_eq_true {e : Edge} (h : e.ends = true) : ∃ r, e = .stop r := by
  cases e with
  | stop r => exact ⟨r, rfl⟩
  | _ => cases h

end Edge

namespace Tables

variable {g : Grammar}

/-- Every site that leads anywhere is one of the grammar. -/
theorem mem_edgesOf (g : Grammar) (s : Nat) : (ofGrammar g).edge s = .fork [] ∨
    ∃ r, (r, s, (ofGrammar g).edge s) ∈ edgesOf (numbering g) := by
  refine (edge_cases g s).imp_right fun ⟨r, hmem⟩ => ⟨r, ?_⟩
  exact List.mem_flatMap.mpr ⟨_, mem_numbering g r, List.mem_map.mpr ⟨_, hmem, rfl⟩⟩

theorem regular_ofGrammar (hg : ∀ r, Item.Proper (g r)) (hgrounds : (ofGrammar g).Grounds)
    (hregular : (edgesOf (numbering g)).all (fun x => x.2.2.regular (numbering g) x.2.1) = true) :
    (ofGrammar g).Regular := by
  have hall := List.all_eq_true.mp hregular
  refine ⟨hgrounds, fun s operator finish hedge => ?_, fun s kinds next hedge => ?_⟩
  · obtain hnone | ⟨r, hmem⟩ := mem_edgesOf g s
    · cases hedge.symm.trans hnone
    · have hclimb := hall _ hmem
      rw [hedge] at hclimb
      simp only [Edge.regular, Bool.and_eq_true, decide_eq_true_eq, List.any_eq_true,
        List.all_eq_true, beq_iff_eq] at hclimb
      obtain ⟨⟨hfirst, ⟨r', s', e⟩, hstop, hfinish, hends⟩, hinside⟩ := hclimb
      obtain ⟨rule, rfl⟩ := Edge.ends_eq_true hends
      refine ⟨_, hedge, ⟨rule, ?_⟩, hfirst, fun s' hlt hbound => ?_⟩
      · rw [← show s' = finish from hfinish]
        exact edge_of_mem hg hstop
      · obtain hnone | ⟨r', hmem'⟩ := mem_edgesOf g s'
        · simp [hnone, Edge.nexts]
        · have hkeeps := hinside _ hmem'
          rw [decide_eq_true ⟨hlt, hbound⟩, Bool.not_true, Bool.false_or, Edge.keeps,
            Bool.and_eq_true, List.all_eq_true] at hkeeps
          refine ⟨fun r hr => ?_, fun n hn => of_decide_eq_true (hkeeps.2 n hn)⟩
          rw [hr] at hkeeps
          cases hkeeps.1
  · obtain hnone | ⟨r, hmem⟩ := mem_edgesOf g s
    · cases hedge.symm.trans hnone
    · have hterminal := hall _ hmem
      rw [hedge, Edge.regular, List.any_eq_true] at hterminal
      obtain ⟨k, _, hk⟩ := hterminal
      exact ⟨k, hk⟩

end Tables

end Callscope
