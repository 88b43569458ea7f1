import Callscope.Proofs.Run.Delivery
import Callscope.Proofs.Run.Outputs

/-!
# Jobs side by side

Several source files may be converted at the same time. Reading a file is one step and writing its graph
is a later one, and the steps of different files come in any order. Files are found by the texts of their
absolute paths. All files are then read as they were at first, and each place of a graph is left with the
graph that was written there last. So the order matters exactly if two files with different graphs have one
place for them.
-/

namespace Callscope

open Callscope.Path (renameSuffix)

/-! ## Steps -/

namespace Job

/-- The graph of the file at a path. -/
def drawing (d : Disk) (p : Path) : Except Failure String := (outlineAt d p).map Outline.dot

theorem drawing_of_read {d d' : Disk} {p q : Path} (h : d'.read q = d.read p) :
    drawing d' q = drawing d p := by
  rw [drawing, drawing, outlineAt, outlineAt, h]

/-- The disk that is left by a job that does not fail. -/
def settled (x : Disk × Job Unit) : Except Failure Disk := x.2.result.map fun _ => x.1

/-- A step of the job of one file. -/
inductive Step where
  | read (p : Path)
  | write (p : Path)
  deriving DecidableEq

/-- A disk that jobs work on, and the graphs that they have drawn. -/
structure Bench where
  disk : Disk
  drawn : Table Path String

namespace Bench

/-- Takes one step. To open an output, which empties it, and to fill it are one step and not two, so what
two jobs write to one place never gets mixed there. -/
def step (b : Bench) : Step → Except Failure Bench
  | .read p =>
    (drawing b.disk (b.disk.asAbsolute p)).map fun text => { b with drawn := (p, text) :: b.drawn }
  | .write p =>
    match b.drawn.get? p with
    | none => .ok b
    | some text =>
      ((b.disk.write (b.disk.asAbsolute (p.withSuffix ".dot")) text.toUTF8).mapError
        Failure.file).map fun d => { b with disk := d }

def run (b : Bench) : List Step → Except Failure Bench
  | [] => .ok b
  | s :: ss => (b.step s).bind fun b => b.run ss

end Bench

/-- The steps of jobs that run one after the other. -/
def turns (ps : List Path) : List Step := ps.flatMap fun p => [.read p, .write p]

/-- An order of the steps of all jobs. No graph is written before its file has been read. -/
structure Schedule (ps : List Path) (ss : List Step) : Prop where
  complete : ss.Perm (turns ps)
  ordered : ∀ before p after, ss = before ++ .write p :: after → .read p ∈ before

/-! ## One after the other -/

theorem settled_perform (d : Disk) (p output : Path) :
    settled (perform d p (some output)) = (drawing d p).bind fun text =>
      (d.write output text.toUTF8).mapError Failure.file := by
  obtain ⟨hleft, hresult⟩ := Prod.mk.inj (perform_eq d p (some output))
  rw [settled, hleft, hresult, drawing]
  cases outlineAt d p with
  | error e => rfl
  | ok o =>
    dsimp only [Except.map, Except.bind]
    rw [Disk.write]
    cases hopen : d.openEmpty output with
    | error e =>
      rw [deliver_of_error hopen]
      rfl
    | ok opened =>
      rw [deliver_of_ok hopen]
      rfl

theorem result_outcome (written : Bool) (progress : String) (input : Path) :
    (outcome written progress input).result = .ok () := by
  unfold outcome
  split <;> rfl

/-- What is noted after a job does not count for what it leaves. -/
theorem settled_note (x : Disk × Job Unit) (f : Unit → Job Unit) (h : ∀ u, (f u).result = .ok ()) :
    settled (x.1, x.2 >>= f) = settled x := by
  rw [settled, settled, result_bind]
  cases x.2.result with
  | error e => rfl
  | ok u => rw [Except.bind, h]

theorem settled_create (d : Disk) (p output : Path) (progress : String) :
    settled (create d p output progress) = (drawing d (d.asAbsolute p)).bind fun text =>
      (d.write (d.asAbsolute output) text.toUTF8).mapError Failure.file := by
  have htarget : target (some (output.absolute d.here).text) = some (d.asAbsolute output) :=
    target_eq_some_iff.mpr ⟨_, rfl, Path.text_ne_empty (output.slashes_absolute d.here), rfl⟩
  have hconvert : convert d (p.absolute d.here).text (some (output.absolute d.here).text) =
      perform d (d.asAbsolute p) (some (d.asAbsolute output)) := by
    rw [convert, htarget]
    rfl
  rw [← settled_perform, create, hconvert]
  exact settled_note _ _ fun _ => result_outcome ..

theorem settled_createAll_cons (d : Disk) (i n : Nat) (p : Path) (ps : List Path) :
    settled (createAll d i n (p :: ps)) =
      (settled (create d p (p.withSuffix ".dot") (progress (i + 1) n))).bind fun d' =>
        settled (createAll d' (i + 1) n ps) := by
  rw [createAll]
  generalize create d p (p.withSuffix ".dot") (progress (i + 1) n) = x
  obtain ⟨d', job⟩ := x
  dsimp only [settled]
  cases hresult : job.result with
  | error e =>
    rw [hresult]
    rfl
  | ok _ =>
    dsimp only
    rw [result_bind, hresult]
    rfl

/-- Jobs one after the other are one of the orders. -/
theorem disk_run_turns (b : Bench) (ps : List Path) (i n : Nat) :
    (b.run (turns ps)).map Bench.disk = settled (createAll b.disk i n ps) := by
  induction ps generalizing b i with
  | nil => rfl
  | cons p ps ih =>
    rw [settled_createAll_cons, settled_create]
    change (b.run (.read p :: .write p :: turns ps)).map Bench.disk = _
    rw [Bench.run, Bench.step]
    cases drawing b.disk (b.disk.asAbsolute p) with
    | error e => rfl
    | ok text =>
      have hget : Table.get? ((p, text) :: b.drawn) p = some text := by
        rw [Table.get?_cons, if_pos rfl]
      simp only [Except.map, Except.bind, Bench.run, Bench.step, hget]
      cases b.disk.write (b.disk.asAbsolute (p.withSuffix ".dot")) text.toUTF8 with
      | error e => rfl
      | ok d => exact ih ⟨d, (p, text) :: b.drawn⟩ (i + 1)

theorem turns_cons (p : Path) (ps : List Path) :
    turns (p :: ps) = .read p :: .write p :: turns ps := rfl

theorem mem_turns {ps : List Path} {p : Path} :
    (.write p ∈ turns ps ↔ p ∈ ps) ∧ (.read p ∈ turns ps ↔ p ∈ ps) := by
  constructor <;> simp [turns]

theorem nodup_turns {ps : List Path} (h : ps.Nodup) : (turns ps).Nodup := by
  induction ps with
  | nil => exact List.nodup_nil
  | cons p ps ih =>
    rw [List.nodup_cons] at h
    rw [turns_cons]
    refine List.nodup_cons.mpr ⟨?_, List.nodup_cons.mpr ⟨?_, ih h.2⟩⟩
    · simpa [mem_turns] using h.1
    · simpa [mem_turns] using h.1

/-- Whatever the order of the files, their jobs may run one after the other. -/
theorem schedule_turns {ps qs : List Path} (h : qs.Perm ps) : Schedule ps (turns qs) where
  complete := h.flatMap_right _
  ordered := by
    clear h
    induction qs with
    | nil =>
      intro before p after h
      simp [turns] at h
    | cons q qs ih =>
      intro before p after h
      rw [turns_cons] at h
      rcases before with _ | ⟨s, _ | ⟨s', before⟩⟩
      · cases h
      · cases h
        exact List.mem_singleton_self _
      · simp only [List.cons_append, List.cons.injEq] at h
        have hread := ih before p after h.2.2
        exact List.mem_cons_of_mem _ (List.mem_cons_of_mem _ hread)

/-! ## Any order -/

/-- Source files with their graphs and with places for them where files can be. The place of a graph may
be its own source, but never another one. -/
structure Plan (d : Disk) (ps : List Path) where
  sound : d.Sound
  text : Path → String
  place : Path → Location
  draws : ∀ p ∈ ps, drawing d p = .ok (text p)
  leads : ∀ p ∈ ps, ∃ init dir n, d.Leads p init dir n ∧ place p = dir ++ [renameSuffix ".dot" n]
  free : ∀ p ∈ ps, p.asksDirectory = false ∧ d.isDirectory (place p) = false
  apart : ∀ p ∈ ps, ∀ q ∈ ps, ∀ init dir n, d.Leads p init dir n → place q = dir ++ [n] → q = p

namespace Plan

variable {d : Disk} {ps : List Path} (plan : Plan d ps) {ss : List Step} {p q : Path} {l : Location}
  {b : Bench}

/-- What is at a location after some steps: the graph that was written there last, or what was there at
first. -/
def left (ss : List Step) (l : Location) : Option Entry :=
  ss.foldl (fun e s => match s with
    | .read _ => e
    | .write p => if plan.place p = l then some (.file (plan.text p).toUTF8) else e) (d.entry? l)

theorem left_read : plan.left (ss ++ [.read p]) l = plan.left ss l := by
  rw [left, List.foldl_append]
  rfl

theorem left_write : plan.left (ss ++ [.write p]) l =
    if plan.place p = l then some (.file (plan.text p).toUTF8) else plan.left ss l := by
  rw [left, List.foldl_append]
  rfl

/-- A graph that was written is at a location, or nothing was written there. -/
theorem left_cases (ss : List Step) (l : Location) :
    (∃ p, .write p ∈ ss ∧ plan.place p = l ∧
      plan.left ss l = some (.file (plan.text p).toUTF8)) ∨
    (∀ p, .write p ∈ ss → plan.place p ≠ l) ∧ plan.left ss l = d.entry? l := by
  induction ss using List.reverseRecOn with
  | nil => exact .inr ⟨nofun, rfl⟩
  | append_singleton ss s ih =>
    cases s with
    | read p =>
      rw [left_read]
      refine ih.imp ?_ ?_
      · rintro ⟨q, hq, hplace, hleft⟩
        exact ⟨q, List.mem_append_left _ hq, hplace, hleft⟩
      · rintro ⟨hnone, hleft⟩
        exact ⟨fun q hq => hnone q (by simpa using hq), hleft⟩
    | write p =>
      rw [left_write]
      by_cases hp : plan.place p = l
      · exact .inl ⟨p, by simp, hp, if_pos hp⟩
      · rw [if_neg hp]
        refine ih.imp ?_ ?_
        · rintro ⟨q, hq, hplace, hleft⟩
          exact ⟨q, List.mem_append_left _ hq, hplace, hleft⟩
        · rintro ⟨hnone, hleft⟩
          refine ⟨fun q hq => ?_, hleft⟩
          rcases List.mem_append.mp hq with hq | hq
          · exact hnone q hq
          · cases List.mem_singleton.mp hq
            exact hp

/-- A bench after some steps. -/
structure Reached (ss : List Step) (b : Bench) : Prop where
  here : b.disk.here = d.here
  disk : ∀ l, b.disk.entry? l = plan.left ss l
  drawn : ∀ p ∈ ps, .read p ∈ ss → b.drawn.get? p = some (plan.text p)

variable {plan}

theorem leads_output (hp : p ∈ ps) :
    ∃ init dir n, d.Leads (p.withSuffix ".dot") init dir n ∧ plan.place p = dir ++ [n] ∧
      ".dot".toList <:+ n.toList := by
  obtain ⟨init, dir, n, hleads, hplace⟩ := plan.leads p hp
  exact ⟨init, dir, _, hleads.withSuffix (Disk.isName_renameSuffix_dot hleads.name), hplace,
    Path.suffix_renameSuffix ".dot" n⟩

namespace Reached

/-- Directories stay. -/
theorem keeps (h : plan.Reached ss b) (hss : ∀ p, .write p ∈ ss → p ∈ ps) : d.Keeps b.disk where
  here := h.here
  directory := by
    intro l hl
    rw [Disk.isDirectory_iff, h.disk]
    rcases plan.left_cases ss l with ⟨p, hp, rfl, _⟩ | ⟨_, hleft⟩
    · rw [(plan.free p (hss p hp)).2] at hl
      cases hl
    · rw [hleft]
      exact Disk.isDirectory_iff.mp hl

theorem asAbsolute (h : plan.Reached ss b) (p : Path) : b.disk.asAbsolute p = d.asAbsolute p := by
  rw [Disk.asAbsolute, h.here]
  rfl

/-- A file is read as it was at first. -/
theorem read (h : plan.Reached ss b) (hss : ∀ p, .write p ∈ ss → p ∈ ps) (hp : p ∈ ps)
    (hfirst : .write p ∉ ss) :
    ∃ b', b.step (.read p) = .ok b' ∧ plan.Reached (ss ++ [.read p]) b' := by
  obtain ⟨init, dir, n, hleads, _⟩ := plan.leads p hp
  obtain ⟨_, _, habsolute⟩ := hleads.asAbsolute plan.sound
  have hentry : b.disk.entry? (dir ++ [n]) = d.entry? (dir ++ [n]) := by
    rw [h.disk]
    rcases plan.left_cases ss (dir ++ [n]) with ⟨q, hq, hplace, _⟩ | ⟨_, hleft⟩
    · rw [plan.apart p hp q (hss q hq) init dir n hleads hplace] at hq
      exact absurd hq hfirst
    · exact hleft
  have hread : b.disk.read (b.disk.asAbsolute p) = d.read p := by
    rw [h.asAbsolute, (h.keeps hss).read habsolute.locate hentry]
    exact hleads.read_asAbsolute plan.sound
  have hdrawing := (drawing_of_read hread).trans (plan.draws p hp)
  refine ⟨⟨b.disk, (p, plan.text p) :: b.drawn⟩, by rw [Bench.step, hdrawing]; rfl, h.here,
    fun l => ?_, fun q hq hmem => ?_⟩
  · rw [left_read]
    exact h.disk l
  · rw [Table.get?_cons]
    by_cases hpq : p = q
    · rw [if_pos hpq, hpq]
    · rw [if_neg hpq]
      refine h.drawn q hq ?_
      rcases List.mem_append.mp hmem with hmem | hmem
      · exact hmem
      · cases List.mem_singleton.mp hmem
        exact absurd rfl hpq

/-- A graph that has been drawn can be written. -/
theorem write (h : plan.Reached ss b) (hss : ∀ p, .write p ∈ ss → p ∈ ps) (hp : p ∈ ps)
    (hread : .read p ∈ ss) :
    ∃ b', b.step (.write p) = .ok b' ∧ plan.Reached (ss ++ [.write p]) b' := by
  obtain ⟨init, dir, n, hleads, hplace, hdot⟩ := plan.leads_output hp
  obtain ⟨hasks, _, habsolute⟩ := hleads.asAbsolute plan.sound
  -- Neither a directory nor the null device is in the place.
  have hfree : b.disk.isDirectory (dir ++ [n]) = false ∧
      b.disk.isDevice (dir ++ [n]) = false := by
    rw [Bool.eq_false_iff, Ne, Disk.isDirectory_iff, Bool.eq_false_iff, Ne, Disk.isDevice_iff, h.disk,
      ← hplace]
    rcases plan.left_cases ss (plan.place p) with ⟨q, _, _, hleft⟩ | ⟨_, hleft⟩
    · rw [hleft]
      exact ⟨nofun, nofun⟩
    · rw [hleft, ← Disk.isDirectory_iff, (plan.free p hp).2, ← Disk.isDevice_iff, hplace,
        plan.sound.not_device hdot]
      exact ⟨nofun, nofun⟩
  have hwrite := (habsolute.mono (h.keeps hss)).write_eq (plan.text p).toUTF8
  rw [hasks, Path.asksDirectory_withSuffix, (plan.free p hp).1, hfree.1, Bool.or_false,
    if_neg Bool.false_ne_true, hfree.2, if_neg Bool.false_ne_true, ← hplace, ← h.asAbsolute] at hwrite
  refine ⟨⟨b.disk.put (plan.place p) (.file (plan.text p).toUTF8), b.drawn⟩, ?_, ?_, fun l => ?_,
    fun q hq hmem => ?_⟩
  · rw [Bench.step, h.drawn p hp hread]
    dsimp only
    rw [hwrite]
    rfl
  · exact (Disk.here_put ..).trans h.here
  · rw [left_write, Disk.entry?_put (by rw [hplace]; simp), h.disk]
    simp only [eq_comm]
  · refine h.drawn q hq ?_
    simpa using hmem

end Reached

/-- Every order of the steps can be run to its end. -/
theorem run_schedule (plan : Plan d ps) (hps : ps.Nodup) (hss : Schedule ps ss) :
    ∃ b, (⟨d, []⟩ : Bench).run ss = .ok b ∧ plan.Reached ss b := by
  have hnodup : ss.Nodup := hss.complete.nodup_iff.mpr (nodup_turns hps)
  have hmem {s : Step} (hs : s ∈ ss) : s ∈ turns ps := hss.complete.mem_iff.mp hs
  -- What has been done is a beginning of the order, and what is to do the rest of it.
  have hrun : ∀ todo done b, ss = done ++ todo → plan.Reached done b →
      ∃ b', b.run todo = .ok b' ∧ plan.Reached ss b' := by
    intro todo
    induction todo with
    | nil =>
      intro done b heq h
      rw [List.append_nil] at heq
      exact ⟨b, rfl, heq ▸ h⟩
    | cons s todo ih =>
      intro done b heq h
      have hdone : ∀ p, .write p ∈ done → p ∈ ps := fun p hp =>
        mem_turns.1.mp (hmem (heq ▸ List.mem_append_left _ hp))
      have hstep : ∃ b', b.step s = .ok b' ∧ plan.Reached (done ++ [s]) b' := by
        cases s with
        | read p =>
          refine h.read hdone (mem_turns.2.mp (hmem (by simp [heq]))) fun hwrite => ?_
          -- Otherwise the file would be read twice.
          obtain ⟨before, after, rfl⟩ := List.append_of_mem hwrite
          have hread := hss.ordered before p (after ++ .read p :: todo) (by simp [heq])
          rw [heq, List.nodup_append] at hnodup
          exact hnodup.2.2 _ (List.mem_append_left _ hread) _ List.mem_cons_self rfl
        | write p =>
          exact h.write hdone (mem_turns.1.mp (hmem (by simp [heq])))
            (hss.ordered done p todo heq)
      obtain ⟨b₁, hb₁, h₁⟩ := hstep
      obtain ⟨b', hb', h'⟩ := ih (done ++ [s]) b₁ (by simp [heq]) h₁
      exact ⟨b', by rw [Bench.run, hb₁]; exact hb', h'⟩
  exact hrun ss [] _ rfl ⟨rfl, fun _ => rfl, nofun⟩

theorem write_mem_iff (hss : Schedule ps ss) : .write p ∈ ss ↔ p ∈ ps :=
  hss.complete.mem_iff.trans mem_turns.1

/-- The order of the steps does not matter exactly if files with one place have one graph. -/
theorem left_eq_iff (plan : Plan d ps) :
    (∀ ss ss', Schedule ps ss → Schedule ps ss' → ∀ l, plan.left ss l = plan.left ss' l) ↔
    ∀ p ∈ ps, ∀ q ∈ ps, plan.place p = plan.place q → plan.text p = plan.text q := by
  constructor
  · intro hsame p hp q hq hplace
    -- One order writes the graph of `p` last, and another one that of `q`.
    have hlast {r : Path} (hr : r ∈ ps) : ∃ ss, Schedule ps ss ∧
        plan.left ss (plan.place r) = some (.file (plan.text r).toUTF8) := by
      refine ⟨turns (ps.erase r ++ [r]), schedule_turns ?_, ?_⟩
      · exact (List.perm_append_singleton r _).trans (List.perm_cons_erase hr).symm
      · rw [turns, List.flatMap_append,
          show ([r].flatMap fun p => [Step.read p, .write p]) = [.read r] ++ [.write r] from rfl,
          ← List.append_assoc, left_write, if_pos rfl]
    obtain ⟨ss, hss, hleft⟩ := hlast hp
    obtain ⟨ss', hss', hleft'⟩ := hlast hq
    rw [← hplace, ← hsame ss ss' hss hss', hleft] at hleft'
    have hbytes : (plan.text p).toUTF8 = (plan.text q).toUTF8 :=
      Entry.file.inj (Option.some.inj hleft')
    exact String.toByteArray_inj.mp hbytes
  · intro htext ss ss' hss hss' l
    rcases plan.left_cases ss l with ⟨p, hp, hplace, hleft⟩ | ⟨hnone, hleft⟩
    · rcases plan.left_cases ss' l with ⟨q, hq, hplace', hleft'⟩ | ⟨hnone', _⟩
      · rw [write_mem_iff hss] at hp
        rw [write_mem_iff hss'] at hq
        rw [hleft, hleft', htext p hp q hq (hplace.trans hplace'.symm)]
      · exact absurd hplace (hnone' p ((write_mem_iff hss').mpr ((write_mem_iff hss).mp hp)))
    · rcases plan.left_cases ss' l with ⟨q, hq, hplace', _⟩ | ⟨_, hleft'⟩
      · exact absurd hplace' (hnone q ((write_mem_iff hss).mpr ((write_mem_iff hss').mp hq)))
      · rw [hleft, hleft']

end Plan

/-! ## The sources at a path -/

variable {d : Disk} {input : Path}

/-- Every source can be converted by itself. -/
def Convertible (d : Disk) (input : Path) : Prop :=
  ∀ p ∈ sources d input, ∃ d', settled (create d p (p.withSuffix ".dot") (progress 1 1)) = .ok d'

theorem exists_plan (h : d.Sound) (hconvert : Convertible d input) :
    Nonempty (Plan d (sources d input)) := by
  have hparts : ∀ p, ∃ text place, p ∈ sources d input →
      drawing d p = .ok text ∧
      (∃ init dir n, d.Leads p init dir n ∧ place = dir ++ [renameSuffix ".dot" n]) ∧
      p.asksDirectory = false ∧ d.isDirectory place = false := by
    intro p
    by_cases hp : p ∈ sources d input
    · obtain ⟨d', hd'⟩ := hconvert p hp
      obtain ⟨init, dir, n, hleads, _⟩ := leads_of_mem_sources h hp
      rw [settled_create, drawing_of_read (hleads.read_asAbsolute h)] at hd'
      cases hdrawing : drawing d p with
      | error e =>
        rw [hdrawing] at hd'
        cases hd'
      | ok text =>
        have houtput := hleads.withSuffix (Disk.isName_renameSuffix_dot hleads.name)
        obtain ⟨hasks, _, habsolute⟩ := houtput.asAbsolute h
        rw [hdrawing, Except.bind, habsolute.write_eq, hasks, Path.asksDirectory_withSuffix] at hd'
        split at hd'
        · cases hd'
        · rename_i hfree
          simp only [Bool.or_eq_true, not_or, Bool.not_eq_true] at hfree
          exact ⟨text, _, fun _ => ⟨rfl, ⟨init, dir, n, hleads, rfl⟩, hfree⟩⟩
    · exact ⟨"", [], fun hmem => absurd hmem hp⟩
  choose text place hplan using hparts
  refine ⟨⟨h, text, place, fun p hp => (hplan p hp).1, fun p hp => (hplan p hp).2.1,
    fun p hp => (hplan p hp).2.2, fun p hp q hq init dir n hleads hplace => ?_⟩⟩
  -- Only a file that was named can be in the place of a graph, and then it is the only source.
  obtain ⟨init', dir', m, hleads', hq'⟩ := (hplan q hq).2.1
  rw [hq'] at hplace
  have hname : renameSuffix ".dot" m = n := (List.append_singleton_inj.mp hplace).2
  obtain ⟨init₁, dir₁, n₁, hleads₁, hn₁⟩ := leads_of_mem_sources h hp
  rcases hn₁ with ⟨hfile, rfl⟩ | hends
  · rw [sources_of_isFile hfile, List.mem_singleton] at hq
    exact hq
  · rw [(List.append_singleton_inj.mp (hleads₁.parts.symm.trans hleads.parts)).2] at hends
    exact absurd hname (renameSuffix_ne_java hends)

/-- Two sources have one place for their graphs exactly if they have one output. -/
theorem Plan.place_eq_iff (plan : Plan d (sources d input)) (h : d.Sound) {p q : Path}
    (hp : p ∈ sources d input) (hq : q ∈ sources d input) :
    plan.place p = plan.place q ↔ p.withSuffix ".dot" = q.withSuffix ".dot" := by
  obtain ⟨init, dir, n, hleads, hplace⟩ := plan.leads p hp
  obtain ⟨init', dir', m, hleads', hplace'⟩ := plan.leads q hq
  rw [hplace, hplace', withSuffix_eq_iff hp hq hleads.parts hleads'.parts]
  constructor
  · intro heq
    obtain ⟨rfl, hname⟩ := List.append_singleton_inj.mp heq
    exact ⟨init_eq_of_dir h hp hq hleads hleads', hname⟩
  · rintro ⟨rfl, hname⟩
    have hdir := hleads'.follow
    rw [start_of_mem_sources hq, ← start_of_mem_sources hp, hleads.follow] at hdir
    rw [Except.ok.inj hdir, hname]

/-- After every order of the steps each output holds the graph of a source that has this output, and all
other locations are as they were. -/
theorem Plan.outputs (plan : Plan d (sources d input)) (h : d.Sound) {ss : List Step} {b : Bench}
    (hss : Schedule (sources d input) ss) (hb : plan.Reached ss b) :
    (∀ p ∈ sources d input, ∃ q ∈ sources d input, ∃ text, q.withSuffix ".dot" = p.withSuffix ".dot" ∧
      drawing d q = .ok text ∧ b.disk.read (p.withSuffix ".dot") = .ok text.toUTF8) ∧
    ∀ l, (∀ p ∈ sources d input, d.locate (p.withSuffix ".dot") ≠ .ok l) →
      b.disk.entry? l = d.entry? l := by
  have hwrites : ∀ p, .write p ∈ ss → p ∈ sources d input := fun p => (Plan.write_mem_iff hss).mp
  constructor
  · intro p hp
    obtain ⟨init, dir, n, hleads, hplace, _⟩ := plan.leads_output hp
    have hread := (hleads.mono (hb.keeps hwrites)).read_eq
    rw [hb.disk, ← hplace] at hread
    rcases plan.left_cases ss (plan.place p) with ⟨q, hq, hsame, hleft⟩ | ⟨hnone, _⟩
    · have hq := hwrites q hq
      refine ⟨q, hq, plan.text q, (plan.place_eq_iff h hq hp).mp hsame, plan.draws q hq, ?_⟩
      rw [hread, hleft, Path.asksDirectory_withSuffix, (plan.free p hp).1]
      rfl
    · exact absurd rfl (hnone p ((Plan.write_mem_iff hss).mpr hp))
  · intro l hl
    rw [hb.disk]
    rcases plan.left_cases ss l with ⟨q, hq, rfl, _⟩ | ⟨_, hleft⟩
    · obtain ⟨init, dir, n, hleads, hplace, _⟩ := plan.leads_output (hwrites q hq)
      refine absurd ?_ (hl q (hwrites q hq))
      rw [hplace]
      exact hleads.locate
    · exact hleft

/-- On every sound disk the outputs are apart but for the files `.java` and `.java.java` of one directory,
and they are no sources but for a file that was named and ends in `.dot`. If every source can be converted,
so can all of them in any order, and what is left depends on the order exactly if two sources with
different graphs have one output. -/
theorem outputs_apart_iff (h : d.Sound) (input : Path) :
    ((∀ p ∈ sources d input, ∀ q ∈ sources d input,
        p.withSuffix ".dot" = q.withSuffix ".dot" → p = q) ↔
      ¬ ∃ init, (∃ p ∈ sources d input, p.parts = init ++ [".java"]) ∧
        ∃ q ∈ sources d input, q.parts = init ++ [".java.java"]) ∧
    ((∀ p ∈ sources d input, p.withSuffix ".dot" ∉ sources d input) ↔
      ¬ (d.isFile input = true ∧ ∃ init x, x ≠ "" ∧ input.parts = init ++ [x ++ ".dot"])) ∧
    (Schedule (sources d input) (turns (sources d input)) ∧
      settled (all d input) = ((⟨d, []⟩ : Bench).run (turns (sources d input))).map Bench.disk) ∧
    (Convertible d input →
      (∀ ss, Schedule (sources d input) ss → ∃ b, (⟨d, []⟩ : Bench).run ss = .ok b ∧
        (∀ p ∈ sources d input, ∃ q ∈ sources d input, ∃ text,
          q.withSuffix ".dot" = p.withSuffix ".dot" ∧ drawing d q = .ok text ∧
          b.disk.read (p.withSuffix ".dot") = .ok text.toUTF8) ∧
        ∀ l, (∀ p ∈ sources d input, d.locate (p.withSuffix ".dot") ≠ .ok l) →
          b.disk.entry? l = d.entry? l) ∧
      ((∀ ss ss' b b', Schedule (sources d input) ss → Schedule (sources d input) ss' →
          (⟨d, []⟩ : Bench).run ss = .ok b → (⟨d, []⟩ : Bench).run ss' = .ok b' →
          ∀ l, b.disk.entry? l = b'.disk.entry? l) ↔
        ∀ p ∈ sources d input, ∀ q ∈ sources d input,
          p.withSuffix ".dot" = q.withSuffix ".dot" → drawing d p = drawing d q)) := by
  refine ⟨withSuffix_inj_iff h input, withSuffix_not_mem_iff h input,
    ⟨schedule_turns (List.Perm.refl _), (disk_run_turns ⟨d, []⟩ _ 0 _).symm⟩, fun hconvert => ?_⟩
  obtain ⟨plan⟩ := exists_plan h hconvert
  have hrun {ss : List Step} (hss : Schedule (sources d input) ss) :=
    plan.run_schedule (nodup_sources h input) hss
  constructor
  · intro ss hss
    obtain ⟨b, hb, hreached⟩ := hrun hss
    exact ⟨b, hb, plan.outputs h hss hreached⟩
  · have htext : (∀ p ∈ sources d input, ∀ q ∈ sources d input,
          p.withSuffix ".dot" = q.withSuffix ".dot" → drawing d p = drawing d q) ↔
        ∀ p ∈ sources d input, ∀ q ∈ sources d input,
          plan.place p = plan.place q → plan.text p = plan.text q := by
      refine forall₄_congr fun p hp q hq => ?_
      rw [plan.place_eq_iff h hp hq, plan.draws p hp, plan.draws q hq, Except.ok.injEq]
    rw [htext, ← plan.left_eq_iff]
    constructor
    · intro hsame ss ss' hss hss' l
      obtain ⟨b, hb, hreached⟩ := hrun hss
      obtain ⟨b', hb', hreached'⟩ := hrun hss'
      rw [← hreached.disk, ← hreached'.disk]
      exact hsame ss ss' b b' hss hss' hb hb' l
    · intro hsame ss ss' b b' hss hss' hb hb' l
      obtain ⟨b₁, hb₁, hreached⟩ := hrun hss
      obtain ⟨b₂, hb₂, hreached'⟩ := hrun hss'
      cases hb₁.symm.trans hb
      cases hb₂.symm.trans hb'
      rw [hreached.disk, hreached'.disk]
      exact hsame ss ss' hss hss' l

/-- Two files that have no name before their suffix, and a file that has the suffix of the graphs. -/
def crowded : Disk where
  here := ["w"]
  entries := [(["dev"], .directory), (["dev", "null"], .nullDevice), (["w"], .directory),
    (["w", ".java"], .file "class A \x7b \x7d".toUTF8),
    (["w", ".java.java"], .file "class B \x7b \x7d".toUTF8),
    (["w", "a.dot"], .file "class C \x7b \x7d".toUTF8)]

/-- Both hidden files are sources of the working directory. -/
theorem mem_sources_crowded : ∀ n ∈ [".java", ".java.java"],
    ⟨0, [n], false⟩ ∈ sources crowded ⟨0, [], false⟩ := by
  have hmem : ∀ n ∈ [".java", ".java.java"],
      ["w", n] ∈ crowded.locations ∧ ".java".toList <:+ n.toList := by decide +kernel
  intro n hn
  exact @Disk.mem_below_of_entry crowded ⟨0, [], false⟩ ["w"] [] n ".java" rfl rfl (hmem n hn).1
    (hmem n hn).2

/-- Two sources have one output, and the output of a source is the source itself. -/
theorem outputs_clash :
    (∃ p ∈ sources crowded ⟨0, [], false⟩, ∃ q ∈ sources crowded ⟨0, [], false⟩,
      p ≠ q ∧ p.withSuffix ".dot" = q.withSuffix ".dot") ∧
    ∃ p ∈ sources crowded ⟨0, ["a.dot"], false⟩,
      p.withSuffix ".dot" ∈ sources crowded ⟨0, ["a.dot"], false⟩ :=
  ⟨⟨_, mem_sources_crowded ".java" (by decide), _, mem_sources_crowded ".java.java" (by decide),
    by decide +kernel⟩, by decide +kernel⟩

/-- The outputs of the hidden files are not apart, and that of a file that was named is. -/
theorem outputs_apart_iff_crowded :
    crowded.Sound ∧
    ¬ (∀ p ∈ sources crowded ⟨0, [], false⟩, ∀ q ∈ sources crowded ⟨0, [], false⟩,
      p.withSuffix ".dot" = q.withSuffix ".dot" → p = q) ∧
    ∀ p ∈ sources crowded ⟨0, ["a.dot"], false⟩, ∀ q ∈ sources crowded ⟨0, ["a.dot"], false⟩,
      p.withSuffix ".dot" = q.withSuffix ".dot" → p = q := by
  have hsound : crowded.Sound := by decide +kernel
  refine ⟨hsound, fun hinj => ?_, ?_⟩
  · exact (outputs_apart_iff hsound ⟨0, [], false⟩).1.mp hinj
      ⟨[], ⟨_, mem_sources_crowded ".java" (by decide), rfl⟩,
        _, mem_sources_crowded ".java.java" (by decide), rfl⟩
  · refine (outputs_apart_iff hsound ⟨0, ["a.dot"], false⟩).1.mpr ?_
    rintro ⟨init, ⟨p, hp, hparts⟩, q, hq, hparts'⟩
    have hfile : crowded.isFile ⟨0, ["a.dot"], false⟩ = true := by decide +kernel
    rw [sources_of_isFile hfile, List.mem_singleton] at hp hq
    rw [hp.trans hq.symm, hparts'] at hparts
    exact absurd (List.append_cancel_left hparts) (by decide)

end Job

end Callscope
