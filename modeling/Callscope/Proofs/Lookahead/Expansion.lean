import Callscope.Lookahead.Reach
import Callscope.Proofs.Grammar.Descent

/-!
# What a step of a closure can do

A configuration is followed along one edge, or found. `Follows` and `Finds` list the cases, so that what
is kept by all of them holds of the closure (`closure_of`). Configurations with the same key are merged
when they are found; `Each` is for properties that survive this.
-/

namespace Callscope

deriving instance ReflBEq, LawfulBEq for Key

namespace Configs

variable {P : Config → Prop} {s : Configs} {c : Config}

theorem mem_toConfigs : c ∈ s.toConfigs ↔ ∃ k : Key, s[k]? = some c := by
  simp only [toConfigs, List.mem_map, Prod.exists, exists_eq_right,
    Std.HashMap.mem_toList_iff_getElem?_eq_some]

/-- Every configuration of the set has a property and is held under its own key. -/
def Each (P : Config → Prop) (s : Configs) : Prop :=
  ∀ (k : Key) c, s[k]? = some c → c.key = k ∧ P c

theorem each_empty : Each P {} := fun k c h => by simp at h

theorem Each.of_mem (h : s.Each P) : ∀ c ∈ s.toConfigs, P c := by
  intro c hc
  obtain ⟨k, hk⟩ := mem_toConfigs.mp hc
  exact (h k c hk).2

theorem Each.insert (hs : s.Each P) (hc : P c) {unknown : Bool}
    (hmerge : ∀ d, P d → d.key = c.key → P (d.merge unknown c)) :
    (s.insertConfig unknown c).Each P := by
  intro k d hd
  rw [insertConfig, Std.HashMap.getElem?_alter] at hd
  split at hd
  · rename_i hk
    have hk := eq_of_beq hk
    split at hd
    · cases hd
      exact ⟨hk, hc⟩
    · rename_i e he
      cases hd
      obtain ⟨hkey, hprop⟩ := hs _ e he
      exact ⟨hkey.trans hk, hmerge e hprop hkey⟩
  · exact hs k d hd

/-- Collecting configurations one by one. -/
theorem Each.foldl {α : Type} {f : Configs → α → Configs} {as : List α}
    (hf : ∀ s a, a ∈ as → s.Each P → (f s a).Each P) (hs : s.Each P) : (as.foldl f s).Each P :=
  List.foldlRecOn (motive := Each P) as f hs fun s hs a ha => hf s a ha hs

theorem Each.collect {unknown : Bool} {cs : List Config} (hs : s.Each P) (hcs : ∀ c ∈ cs, P c)
    (hmerge : ∀ c d, P c → P d → c.key = d.key → P (c.merge unknown d)) :
    (cs.foldl (fun (s : Configs) c => s.insertConfig unknown c) s).Each P :=
  .foldl (fun _ c hc hs => hs.insert (hcs c hc) fun d hd hkey => hmerge d c hd (hcs c hc) hkey) hs

end Configs

/-- What is kept behind a token holds of all configurations there. -/
theorem Lookahead.forall_move {P : Config → Prop} {t : Tables} {unknown : Bool} {cs : List Config}
    {k : Kind}
    (hread : ∀ c ∈ cs, ∀ kinds next, t.edge c.site = .terminal kinds next →
      kinds.contains k = true → P { c with site := next })
    (hmerge : ∀ c d, P c → P d → c.key = d.key → P (c.merge unknown d)) :
    ∀ c ∈ move t unknown cs k, P c := by
  refine (Configs.Each.foldl (fun s c hc hs => ?_) Configs.each_empty).of_mem
  split
  · rename_i kinds next hedge
    split
    · rename_i hk
      have hnext := hread c hc kinds next hedge hk
      exact hs.insert hnext fun d hd hkey => hmerge d _ hd hnext hkey
    · exact hs
  · exact hs

namespace Scope

variable {sc : Scope} {c d : Config} {depth : Int} {p : Progress} {x : Config × Int}

/-- After the end of a rule whose callers are unknown a configuration goes on where the rule is called. -/
theorem mem_dips {r : Rule} {callers : List Caller} {seen : Std.HashSet (Key × Bool)}
    (h : x ∈ (sc.dips r c depth callers seen).2) : ∃ caller ∈ callers, ∃ loose,
      x = ({ c with site := caller.next, dipped := true, loose }, depth - 1) := by
  refine List.foldlRecOn
    (motive := fun (y : Std.HashSet (Key × Bool) × Work) => ∀ x ∈ y.2, ∃ caller ∈ callers, ∃ loose,
      x = ({ c with site := caller.next, dipped := true, loose }, depth - 1))
    callers _ (by simp) ?_ x h
  intro y hy caller hcaller x hx
  dsimp only at hx
  split at hx
  · exact hy x hx
  · rcases List.mem_cons.mp hx with rfl | hx
    · exact ⟨caller, hcaller, _, rfl⟩
    · exact hy x hx

/-- Where a configuration is followed to. -/
inductive Follows (sc : Scope) (c : Config) (depth : Int) : Config × Int → Prop
  | eof {kinds : KindSet} {next : Nat} (edge : sc.tables.edge c.site = .terminal kinds next)
      (atEnd : sc.atEnd = true) (admits : kinds.contains .eof = true) :
      Follows sc c depth ({ c with site := next }, depth)
  | call {r : Rule} {level next : Nat} (edge : sc.tables.edge c.site = .call r level next) :
      Follows sc c depth ({ c with site := (sc.tables.rule r).start, stack := c.stack.push next },
        if depth < 0 then depth else depth + 1)
  /-- The test of a level, which is only noted if the callers are unknown. -/
  | guard {level next : Nat} (edge : sc.tables.edge c.site = .guard level next)
      (counts : sc.guards = true ∧ depth = 0) (unknown : sc.unknown = true) :
      Follows sc c depth ({ c with site := next, guard := some level }, depth)
  | way {next : Nat} (edge : next ∈ (sc.tables.edge c.site).ways)
      (passes : ∀ level, sc.tables.edge c.site = .guard level next → sc.guards = true →
        depth = 0 → sc.unknown = false ∧ sc.level ≤ level) :
      Follows sc c depth ({ c with site := next }, depth)
  | back {r : Rule} {top : Nat × Stack} (edge : sc.tables.edge c.site = .stop r)
      (mem : top ∈ c.stack.tops) :
      Follows sc c depth ({ c with site := top.1, stack := top.2, loose := false }, depth - 1)
  | dip {r : Rule} (edge : sc.tables.edge c.site = .stop r) (root : c.stack.isRoot = true)
      (unknown : sc.unknown = true) (next : Nat) (loose : Bool) :
      Follows sc c depth ({ c with site := next, dipped := true, loose }, depth - 1)

/-- What is found at a configuration. -/
inductive Finds (sc : Scope) (c : Config) : Config → Prop
  | token {kinds : KindSet} {next : Nat} (edge : sc.tables.edge c.site = .terminal kinds next) :
      Finds sc c c
  | stop {r : Rule} (edge : sc.tables.edge c.site = .stop r) (root : c.stack.isRoot = true) :
      Finds sc c c
  | ended {r : Rule} (edge : sc.tables.edge c.site = .stop r) (ends : c.stack.ends = true) :
      Finds sc c { c with stack := .root }

/-- A step follows the configuration only as listed. -/
theorem follows_of_mem (h : x ∈ (sc.expand c depth p).1) : sc.Follows c depth x := by
  rw [expand] at h
  split at h
  · rename_i kinds next hedge
    dsimp only at h
    split at h
    · rename_i hcond
      rw [Bool.and_eq_true] at hcond
      rw [List.mem_singleton.mp h]
      exact .eof hedge hcond.1 hcond.2
    · cases h
  · rename_i hedge
    rw [List.mem_singleton.mp h]
    exact .call hedge
  · rename_i level next hedge
    have hway : next ∈ (sc.tables.edge c.site).ways := by rw [hedge]; exact List.mem_singleton.mpr rfl
    dsimp only at h
    split at h
    · rename_i hcond
      rw [Bool.and_eq_true, beq_iff_eq] at hcond
      split at h
      · rename_i hunknown
        rw [List.mem_singleton.mp h]
        exact .guard hedge hcond hunknown
      · rename_i hunknown
        split at h
        · rename_i hlevel
          rw [List.mem_singleton.mp h]
          refine .way hway fun level' hedge' _ _ => ⟨by simpa using hunknown, ?_⟩
          cases hedge.symm.trans hedge'
          exact hlevel
        · cases h
    · rename_i hcond
      rw [List.mem_singleton.mp h]
      refine .way hway fun _ _ hguards hdepth => absurd ?_ hcond
      rw [hguards, hdepth]
      rfl
  · rename_i next hedge
    rw [List.mem_singleton.mp h]
    exact .way (by rw [hedge]; exact List.mem_singleton.mpr rfl) (by simp [hedge])
  · rename_i nexts hedge
    obtain ⟨next, hnext, rfl⟩ := List.mem_map.mp h
    exact .way (by rw [hedge]; exact hnext) (by simp [hedge])
  · rename_i operator finish hedge
    have hfinish : sc.Follows c depth ({ c with site := finish }, depth) :=
      .way (by rw [hedge]; simp [Edge.ways]) (by simp [hedge])
    dsimp only at h
    split at h
    · rw [List.mem_singleton.mp h]
      exact hfinish
    · rcases List.mem_cons.mp h with rfl | h
      · exact .way (by rw [hedge]; simp [Edge.ways]) (by simp [hedge])
      · rw [List.mem_singleton.mp h]
        exact hfinish
  · rename_i r hedge
    split at h
    · rename_i hroot
      split at h
      · cases h
      · rename_i hunknown
        split at h
        · cases h
        · obtain ⟨caller, _, loose, rfl⟩ := mem_dips h
          exact .dip hedge hroot (by simpa using hunknown) _ _
    · obtain ⟨top, htop, rfl⟩ := List.mem_map.mp h
      exact .back hedge htop

/-- A step finds at most one configuration. -/
theorem found_expand (sc : Scope) (c : Config) (depth : Int) (p : Progress) :
    (sc.expand c depth p).2.found = p.found ∨ ∃ d, sc.Finds c d ∧
      (sc.expand c depth p).2.found = p.found.insertConfig sc.unknown d := by
  rw [expand]
  split
  · rename_i hedge
    exact .inr ⟨c, .token hedge, rfl⟩
  · exact .inl rfl
  · exact .inl rfl
  · exact .inl rfl
  · exact .inl rfl
  · exact .inl rfl
  · rename_i r hedge
    split
    · rename_i hroot
      split
      · exact .inr ⟨c, .stop hedge hroot, rfl⟩
      · split
        · exact .inr ⟨c, .stop hedge hroot, rfl⟩
        · exact .inl rfl
    · dsimp only
      split
      · rename_i hends
        exact .inr ⟨_, .ended hedge hends, rfl⟩
      · exact .inl rfl

/-- What every step from a configuration keeps holds of what is found in the end. -/
theorem follow_of {I : Config × Int → Prop} {F : Configs → Prop}
    (hstep : ∀ c depth p, I (c, depth) → F p.found →
      (∀ x ∈ (sc.expand c depth p).1, I x) ∧ F (sc.expand c depth p).2.found)
    {work : Work} {q : Progress} (h : sc.follow work p = some q) (hw : ∀ x ∈ work, I x)
    (hp : F p.found) : F q.found := by
  refine follow.partial_correctness sc
    (fun work p q => (∀ x ∈ work, I x) → F p.found → F q.found) ?_ work p q h hw hp
  intro follow ih work p q h hw hp
  split at h
  · cases h
    exact hp
  · rename_i c depth work
    obtain ⟨hmore, hfound⟩ := hstep c depth p (hw _ List.mem_cons_self) hp
    refine ih _ _ q h (fun x hx => ?_) hfound
    rcases List.mem_append.mp hx with hx | hx
    · exact hmore x hx
    · exact hw x (List.mem_cons_of_mem _ hx)

/-- The closure has what is kept on the way and holds where a configuration is found. -/
theorem closure_of {I : Config × Int → Prop} {P : Config → Prop}
    (hfollows : ∀ c depth x, I (c, depth) → sc.Follows c depth x → I x)
    (hfinds : ∀ c depth d, I (c, depth) → sc.Finds c d → P d)
    (hmerge : ∀ c d, P c → P d → c.key = d.key → P (c.merge sc.unknown d))
    {cs : List Config} (hcs : ∀ c ∈ cs, I (c, 0)) : (sc.closure cs).Each P := by
  rw [closure]
  split
  · rename_i q h
    refine follow_of (I := I) (F := Configs.Each P) (fun c depth p hc hp => ⟨fun x hx => ?_, ?_⟩) h
      (fun x hx => ?_) Configs.each_empty
    · exact hfollows c depth x hc (follows_of_mem hx)
    · rcases found_expand sc c depth p with heq | ⟨d, hd, heq⟩
      · rw [heq]
        exact hp
      · rw [heq]
        have hd := hfinds c depth d hc hd
        exact hp.insert hd fun e he hkey => hmerge e d he hd hkey
    · obtain ⟨c, hc, rfl⟩ := List.mem_map.mp hx
      exact hcs c hc
  · exact Configs.each_empty

end Scope

end Callscope
