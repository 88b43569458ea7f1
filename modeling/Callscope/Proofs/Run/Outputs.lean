import Callscope.Proofs.Files.Soundness
import Callscope.Run.Job

/-!
# Where graphs are written

Each source file has its graph beside it, under its own name with another suffix. Two files of one
directory share a graph only if they are `.java` and `.java.java`, and a source file is the place of a
graph only if it was named itself and ends in `.dot` already. Several jobs may run side by side: reading a
file is one step and writing its graph a later one. All sources are then read as they were at first, so
what is left depends on the order of the steps exactly if two files with different graphs share a place.
-/

namespace Callscope

open Callscope.Path (renameSuffix)

/-! ## Sources -/

namespace Job

variable {d : Disk} {input p q : Path} {init init' : List String} {dir : Location} {n m : String}

theorem sources_of_isFile (h : d.isFile input = true) : sources d input = [input] := if_pos h

/-- A source is the file that was named, or it was found below a directory. -/
theorem mem_sources (hp : p ∈ sources d input) :
    d.isFile input = true ∧ p = input ∨ d.isFile input = false ∧ p ∈ d.below input ".java" := by
  unfold sources at hp
  split at hp
  · rename_i hfile
    exact .inl ⟨hfile, List.mem_singleton.mp hp⟩
  · rename_i hfile
    exact .inr ⟨Bool.eq_false_iff.mpr hfile, hp⟩

/-- Sources differ from the path that was given in their names only. -/
theorem eq_of_mem_sources (hp : p ∈ sources d input) : p = { input with parts := p.parts } := by
  rcases mem_sources hp with ⟨_, rfl⟩ | ⟨_, hp⟩
  · rfl
  · obtain ⟨_, _, _, _, rfl, _⟩ := Disk.mem_below hp
    rfl

theorem start_of_mem_sources (hp : p ∈ sources d input) : d.start p = d.start input := by
  rw [eq_of_mem_sources hp]
  rfl

theorem eq_of_parts (hp : p ∈ sources d input) (hq : q ∈ sources d input)
    (h : p.parts = q.parts) : p = q := by
  rw [eq_of_mem_sources hp, eq_of_mem_sources hq, h]

theorem withSuffix_eq_iff {suffix : String} (hp : p ∈ sources d input) (hq : q ∈ sources d input)
    (hparts : p.parts = init ++ [n]) (hparts' : q.parts = init' ++ [m]) :
    p.withSuffix suffix = q.withSuffix suffix ↔
      init = init' ∧ renameSuffix suffix n = renameSuffix suffix m := by
  rw [Path.withSuffix_of_parts hparts, Path.withSuffix_of_parts hparts', eq_of_mem_sources hp,
    eq_of_mem_sources hq]
  constructor
  · exact fun h => List.append_singleton_inj.mp (congrArg Path.parts h)
  · rintro ⟨hinit, hname⟩
    rw [hinit, hname]

/-- A source leads to a name in a directory, which ends in `.java` unless it was given. -/
theorem leads_of_mem_sources (h : d.Sound) (hp : p ∈ sources d input) :
    ∃ init dir n, d.Leads p init dir n ∧
      (d.isFile input = true ∧ p = input ∨ ".java".toList <:+ n.toList) := by
  rcases mem_sources hp with ⟨hfile, rfl⟩ | ⟨_, hbelow⟩
  · obtain ⟨init, dir, n, hleads⟩ := h.leads_of_isFile hfile
    exact ⟨init, dir, n, hleads, .inl ⟨hfile, rfl⟩⟩
  · obtain ⟨root, ms, n, hroot, hq, hmem, hends⟩ := Disk.mem_below hbelow
    exact ⟨_, _, n, h.leads_of_entry hroot hq hmem, .inr hends⟩

/-- In one directory the sources have the same names before their last one. -/
theorem init_eq_of_dir (h : d.Sound) (hp : p ∈ sources d input) (hq : q ∈ sources d input)
    (hleads : d.Leads p init dir n) (hleads' : d.Leads q init' dir m) : init = init' := by
  rcases mem_sources hp with ⟨hfile, rfl⟩ | ⟨hfile, hp⟩
  · rw [sources_of_isFile hfile, List.mem_singleton] at hq
    rw [hq] at hleads'
    exact (List.append_singleton_inj.mp (hleads.parts.symm.trans hleads'.parts)).1
  · rcases mem_sources hq with ⟨hfile', _⟩ | ⟨_, hq⟩
    · rw [hfile] at hfile'
      cases hfile'
    obtain ⟨root, ms, k, hroot, rfl, hmem, _⟩ := Disk.mem_below hp
    obtain ⟨root', ms', k', hroot', rfl, hmem', _⟩ := Disk.mem_below hq
    cases hroot.symm.trans hroot'
    obtain ⟨rfl, _⟩ := List.append_singleton_inj.mp hleads.parts.symm
    obtain ⟨rfl, _⟩ := List.append_singleton_inj.mp hleads'.parts.symm
    have hdir := (h.leads_of_entry hroot rfl hmem).follow
    have hdir' := (h.leads_of_entry hroot rfl hmem').follow
    rw [hleads.follow] at hdir
    rw [hleads'.follow] at hdir'
    have hms := (Except.ok.inj hdir).symm.trans (Except.ok.inj hdir')
    rw [List.append_cancel_left hms]

theorem nodup_sources (h : d.Sound) (input : Path) : (sources d input).Nodup := by
  unfold sources
  split
  · exact List.nodup_singleton input
  unfold Disk.below
  split
  · split
    · rename_i root _ _
      refine List.Nodup.map_on ?_ ((List.mergeSort_perm _ _).nodup_iff.mpr (h.distinct.filter _))
      intro k hk k' hk' heq
      simp only [List.mem_mergeSort, List.mem_filter, Bool.and_eq_true,
        List.isPrefixOf_iff_prefix] at hk hk'
      obtain ⟨ks, rfl⟩ := hk.2.1.1
      obtain ⟨ks', rfl⟩ := hk'.2.1.1
      simpa using heq
    · exact List.nodup_nil
  · exact List.nodup_nil

/-! ## Outputs -/

/-- Two sources share an output only if they are hidden files with no name before their suffix. -/
theorem withSuffix_inj_iff (h : d.Sound) (input : Path) :
    (∀ p ∈ sources d input, ∀ q ∈ sources d input,
      p.withSuffix ".dot" = q.withSuffix ".dot" → p = q) ↔
    ¬ ∃ init, (∃ p ∈ sources d input, p.parts = init ++ [".java"]) ∧
      ∃ q ∈ sources d input, q.parts = init ++ [".java.java"] := by
  constructor
  · rintro hinj ⟨init, ⟨p, hp, hparts⟩, q, hq, hparts'⟩
    have hsame : p = q :=
      hinj p hp q hq ((withSuffix_eq_iff hp hq hparts hparts').mpr ⟨rfl, by decide⟩)
    rw [hsame, hparts'] at hparts
    exact absurd (List.append_cancel_left hparts) (by decide)
  · intro hnone p hp q hq heq
    obtain ⟨init, dir, n, hleads, hn⟩ := leads_of_mem_sources h hp
    obtain ⟨init', dir', m, hleads', hm⟩ := leads_of_mem_sources h hq
    obtain ⟨rfl, hname⟩ := (withSuffix_eq_iff hp hq hleads.parts hleads'.parts).mp heq
    rcases hn with ⟨hfile, rfl⟩ | ⟨x, hx⟩
    · rw [sources_of_isFile hfile, List.mem_singleton] at hq
      exact hq.symm
    rcases hm with ⟨hfile, rfl⟩ | ⟨y, hy⟩
    · rw [sources_of_isFile hfile, List.mem_singleton] at hp
      exact hp
    have hstem := Path.renameSuffix_inj hname
    rw [← hx, ← hy] at hstem
    have hpair {k : String} {z : List Char} (hz : z ++ ".java".toList = k.toList) :
        k = String.ofList z ++ ".java" := by
      rw [← String.toList_inj, String.toList_append, String.toList_ofList, hz]
    rcases Path.stem_java_inj hstem with rfl | ⟨rfl, rfl⟩ | ⟨rfl, rfl⟩
    · refine eq_of_parts hp hq ?_
      rw [hleads.parts, hleads'.parts, hpair hx, hpair hy]
    · refine absurd ⟨init, ⟨p, hp, ?_⟩, q, hq, ?_⟩ hnone
      · rw [hleads.parts, hpair hx]; rfl
      · rw [hleads'.parts, hpair hy]; rfl
    · refine absurd ⟨init, ⟨q, hq, ?_⟩, p, hp, ?_⟩ hnone
      · rw [hleads'.parts, hpair hy]; rfl
      · rw [hleads.parts, hpair hx]; rfl

/-- No name that ends in `.java` is one that a graph gets. -/
theorem renameSuffix_ne_java (h : ".java".toList <:+ n.toList) : renameSuffix ".dot" m ≠ n := by
  rintro rfl
  rcases List.suffix_or_suffix_of_suffix h (Path.suffix_renameSuffix ".dot" m) with hs | hs
  · exact absurd hs (by decide)
  · exact absurd hs (by decide)

/-- A source is an output only if it is the file that was named and has the suffix already. -/
theorem withSuffix_not_mem_iff (h : d.Sound) (input : Path) :
    (∀ p ∈ sources d input, p.withSuffix ".dot" ∉ sources d input) ↔
    ¬ (d.isFile input = true ∧
      ∃ init x, x ≠ "" ∧ input.parts = init ++ [x ++ ".dot"]) := by
  constructor
  · rintro hnone ⟨hfile, init, x, hx, hparts⟩
    have hmem : input ∈ sources d input := by
      rw [sources_of_isFile hfile]
      exact List.mem_singleton_self input
    refine hnone input hmem ?_
    rw [Path.withSuffix_of_parts hparts, Path.renameSuffix_dot_eq_self.mpr ⟨x, hx, rfl⟩, ← hparts]
    exact hmem
  · intro hnone p hp hmem
    obtain ⟨init, dir, n, hleads, hn⟩ := leads_of_mem_sources h hp
    obtain ⟨init', dir', m, hleads', hm⟩ := leads_of_mem_sources h hmem
    rw [Path.withSuffix_of_parts hleads.parts] at hleads'
    have hname : renameSuffix ".dot" n = m := (List.append_singleton_inj.mp hleads'.parts).2
    rcases hm with ⟨hfile, heq⟩ | hends
    · rw [sources_of_isFile hfile, List.mem_singleton] at hp
      subst hp
      have hparts := hleads.parts
      rw [← heq, Path.withSuffix_of_parts hleads.parts] at hparts
      have hself := (List.append_singleton_inj.mp hparts).2
      obtain ⟨x, hx, rfl⟩ := Path.renameSuffix_dot_eq_self.mp hself
      exact hnone ⟨hfile, init, x, hx, hleads.parts⟩
    · exact renameSuffix_ne_java hends hname

end Job

end Callscope
