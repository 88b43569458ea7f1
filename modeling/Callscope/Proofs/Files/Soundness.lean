import Callscope.Files.Disk
import Callscope.Proofs.Files.Suffix
import Callscope.Proofs.Files.Texts
import Callscope.Proofs.Outline.Table
import Mathlib.Data.List.Induction
import Mathlib.Data.List.Nodup

/-!
# Sound disks

On a sound disk every entry has a location of its own and lies in a directory, there is a working
directory, and the null device is at its usual place. A path to an entry leads to a name in a directory,
and it still does after files have been written, since these are never put in the place of a directory.
The text of its absolute path leads there as well.
-/

namespace Callscope.Disk

variable {d d' : Disk} {l m : Location} {p : Path}

/-- A name that an entry of a directory can have. -/
def isName (n : String) : Bool := n != "" && n != "." && n != ".." && !n.toList.contains '/'

theorem ne_of_isName {n : String} (h : isName n = true) : n ≠ "." ∧ n ≠ ".." := by
  simp only [isName, Bool.and_eq_true, bne_iff_ne] at h
  exact ⟨h.1.1.2, h.1.2⟩

theorem isPart_of_isName {n : String} (h : isName n = true) : Path.IsPart n := by
  simp only [isName, Bool.and_eq_true, bne_iff_ne, Bool.not_eq_true', List.contains_eq_mem,
    decide_eq_false_iff_not] at h
  exact ⟨h.1.1.1, h.2⟩

def isDirectory (d : Disk) (l : Location) : Bool :=
  match d.entry? l with
  | some .directory => true
  | _ => false

theorem isDirectory_iff : d.isDirectory l = true ↔ d.entry? l = some .directory := by
  unfold isDirectory
  split
  · simp_all
  · simp_all

theorem isDevice_iff : d.isDevice l = true ↔ d.entry? l = some .nullDevice := by
  unfold isDevice
  split
  · simp_all
  · simp_all

def locations (d : Disk) : List Location := d.entries.map Prod.fst

structure Sound (d : Disk) : Prop where
  distinct : d.locations.Nodup
  named : ∀ l ∈ d.locations, l ≠ [] ∧ ∀ n ∈ l, isName n = true
  nested : ∀ l ∈ d.locations, d.isDirectory l.dropLast = true
  /-- There is a working directory. -/
  placed : d.isDirectory d.here = true
  /-- The null device is nowhere but at `/dev/null`. -/
  device : ∀ l ∈ d.locations, d.isDevice l = true → l = ["dev", "null"]

instance : Decidable d.Sound :=
  decidable_of_iff (d.locations.Nodup ∧ (∀ l ∈ d.locations, l ≠ [] ∧ ∀ n ∈ l, isName n = true) ∧
      (∀ l ∈ d.locations, d.isDirectory l.dropLast = true) ∧ d.isDirectory d.here = true ∧
      ∀ l ∈ d.locations, d.isDevice l = true → l = ["dev", "null"])
    ⟨fun h => ⟨h.1, h.2.1, h.2.2.1, h.2.2.2.1, h.2.2.2.2⟩,
      fun h => ⟨h.distinct, h.named, h.nested, h.placed, h.device⟩⟩

/-! ## Entries -/

theorem entry?_of_ne (h : l ≠ []) : d.entry? l = Table.get? d.entries l := by
  have hbeq : (List.instBEq : BEq Location) = instBEqOfDecidableEq := lawful_beq_subsingleton _ _
  unfold entry?
  rw [if_neg (by simpa using h), hbeq]
  rfl

theorem mem_locations_of_entry {e : Entry} (h : d.entry? l = some e) (hl : l ≠ []) :
    l ∈ d.locations := by
  rw [entry?_of_ne hl] at h
  exact Table.mem_keys_of_mem (Table.mem_of_get? h)

theorem get?_replace (entries : Table Location Entry) (e : Entry) :
    Table.get? (entries.map fun x => if x.1 == l then (l, e) else x) m =
      if m = l ∧ l ∈ entries.keys then some e else entries.get? m := by
  induction entries with
  | nil => simp [Table.keys]
  | cons x xs ih =>
    obtain ⟨k, b⟩ := x
    rw [List.map_cons, Table.get?_cons, Table.keys_cons, ih, Table.get?_cons]
    by_cases hk : k = l <;> by_cases hm : m = l <;> grind

/-- A location holds what was last put there. -/
theorem entry?_put (hl : l ≠ []) (e : Entry) :
    entry? (d.put l e) m = if m = l then some e else d.entry? m := by
  by_cases hm : m = []
  · have hne : m ≠ l := fun h => hl (h ▸ hm)
    rw [if_neg hne, hm]
    rfl
  rw [entry?_of_ne hm, entry?_of_ne hm, put]
  have hmem : (d.entries.any fun x => x.1 == l) = true ↔ l ∈ Table.keys d.entries := by
    simp [Table.keys]
  split
  · rename_i hany
    simp only [get?_replace, hmem.mp hany, and_true]
  · rename_i hany
    have hnone : Table.get? d.entries l = none := by
      rw [← Option.not_isSome_iff_eq_none]
      exact fun h => hany (hmem.mpr (Table.has_iff.mp h))
    rw [Table.get?_append, Table.get?_cons, Table.get?_nil]
    grind

theorem here_put (d : Disk) (l : Location) (e : Entry) : (d.put l e).here = d.here := by
  unfold put
  split <;> rfl

/-- What is put at a location twice is there as it was put last. -/
theorem put_put (d : Disk) (l : Location) (e e' : Entry) : (d.put l e).put l e' = d.put l e' := by
  have hmap (entries : List (Location × Entry)) :
      (entries.map fun x => if x.1 == l then (l, e) else x).map
        (fun x => if x.1 == l then (l, e') else x) =
      entries.map fun x => if x.1 == l then (l, e') else x := by
    rw [List.map_map]
    refine List.map_congr_left fun x _ => ?_
    by_cases hx : x.1 = l <;> simp [hx]
  unfold put
  split
  · rename_i hany
    have hagain : ((d.entries.map fun x => if x.1 == l then (l, e) else x).any
        fun x => x.1 == l) = true := by
      obtain ⟨x, hx, hl⟩ := List.any_eq_true.mp hany
      refine List.any_eq_true.mpr ⟨_, List.mem_map_of_mem hx, ?_⟩
      rw [if_pos hl]
      exact beq_self_eq_true l
    rw [if_pos hagain, hmap]
  · rename_i hnone
    have hother : ∀ x ∈ d.entries, (x.1 == l) = false := fun x hx =>
      Bool.eq_false_iff.mpr fun hl => hnone (List.any_eq_true.mpr ⟨x, hx, hl⟩)
    have hsame : (d.entries.map fun x => if x.1 == l then (l, e') else x) = d.entries := by
      refine (List.map_congr_left fun x hx => ?_).trans (List.map_id _)
      rw [hother x hx]
      rfl
    rw [if_pos (by simp), List.map_append, hsame]
    simp

/-- A file that is put in no directory's place leaves all directories. -/
theorem isDirectory_put (hl : l ≠ []) (hfree : d.isDirectory l = false) (bytes : ByteArray)
    (hm : d.isDirectory m = true) : (d.put l (.file bytes)).isDirectory m = true := by
  have hne : m ≠ l := by
    rintro rfl
    rw [hfree] at hm
    cases hm
  rw [isDirectory_iff, entry?_put hl, if_neg hne]
  exact isDirectory_iff.mp hm

theorem ne_nil_of_isDirectory (h : d.isDirectory l = false) : l ≠ [] := by
  rintro rfl
  cases h

/-! ## Following names -/

theorem step_name {n : String} (hn : n ≠ "." ∧ n ≠ "..") : l.step n = l ++ [n] := by
  rw [Location.step, if_neg hn.1, if_neg hn.2]

theorem follow_append (as bs : List String) :
    d.follow l (as ++ bs) = (d.follow l as).bind fun m => d.follow m bs := by
  induction as generalizing l with
  | nil => rfl
  | cons n as ih =>
    simp only [List.cons_append, follow]
    split
    · rfl
    · exact ih
    · rfl

theorem follow_cons {n : String} {ns : List String} (h : d.follow l (n :: ns) = .ok m) :
    d.isDirectory l = true ∧ d.follow (l.step n) ns = .ok m := by
  rw [follow] at h
  split at h
  · cases h
  · rename_i hdir
    exact ⟨isDirectory_iff.mpr hdir, h⟩
  · cases h

theorem follow_step {n : String} {ns : List String} (hl : d.isDirectory l = true) :
    d.follow l (n :: ns) = d.follow (l.step n) ns := by
  simp only [follow, isDirectory_iff.mp hl]

theorem follow_name {n : String} (hl : d.isDirectory l = true) (hn : n ≠ "." ∧ n ≠ "..") :
    d.follow l [n] = .ok (l ++ [n]) := by
  rw [follow_step hl, step_name hn]
  rfl

/-- What leads to a directory begins at one. -/
theorem isDirectory_of_follow {ns : List String} (h : d.follow l ns = .ok m)
    (hm : d.isDirectory m = true) : d.isDirectory l = true := by
  cases ns with
  | nil => cases h; exact hm
  | cons n ns => exact (follow_cons h).1

/-- What can be followed can be followed on every disk that has the same directories and more. -/
theorem follow_mono (h : ∀ l, d.isDirectory l = true → d'.isDirectory l = true) {ns : List String}
    (hl : d.follow l ns = .ok m) : d'.follow l ns = .ok m := by
  induction ns generalizing l with
  | nil => exact hl
  | cons n ns ih =>
    obtain ⟨hdir, hrest⟩ := follow_cons hl
    rw [follow_step (h l hdir)]
    exact ih hrest

namespace Sound

variable (h : d.Sound)

include h

/-- Around an entry there are directories only. -/
theorem isDirectory_of_prefix {n : String} {ns : List String} (hmem : l ++ n :: ns ∈ d.locations) :
    d.isDirectory l = true := by
  induction ns using List.reverseRecOn generalizing n with
  | nil =>
    have hdir := h.nested _ hmem
    rwa [List.dropLast_concat] at hdir
  | append_singleton ns n' ih =>
    have hdir := h.nested _ hmem
    rw [← List.cons_append, ← List.append_assoc, List.dropLast_concat] at hdir
    exact ih (mem_locations_of_entry (isDirectory_iff.mp hdir) (by simp))

/-- Names lead to the entry that they are the location of. -/
theorem follow_entry {ns : List String} (hmem : l ++ ns ∈ d.locations) :
    d.follow l ns = .ok (l ++ ns) := by
  induction ns generalizing l with
  | nil => rw [List.append_nil]; rfl
  | cons n ns ih =>
    have hname := (h.named _ hmem).2 n (by simp)
    rw [← List.singleton_append, follow_append,
      follow_name (h.isDirectory_of_prefix hmem) (ne_of_isName hname), Except.bind]
    rw [← List.singleton_append, ← List.append_assoc] at hmem
    rw [← List.append_assoc]
    exact ih hmem

/-- The working directory is where its own names lead. -/
theorem follow_here : d.follow [] d.here = .ok d.here := by
  by_cases hhere : d.here = []
  · rw [hhere]
    rfl
  · exact h.follow_entry (mem_locations_of_entry (isDirectory_iff.mp h.placed) hhere)

theorem isDirectory_start (p : Path) : d.isDirectory (d.start p) = true := by
  unfold start
  split
  · exact h.placed
  · rfl

/-- Above a directory there is a directory. -/
theorem isDirectory_dropLast (hl : d.isDirectory l = true) : d.isDirectory l.dropLast = true := by
  by_cases hnil : l = []
  · rw [hnil]
    rfl
  · exact h.nested l (mem_locations_of_entry (isDirectory_iff.mp hl) hnil)

theorem isPart_here : ∀ n ∈ d.here, Path.IsPart n := by
  intro n hn
  have hmem := mem_locations_of_entry (isDirectory_iff.mp h.placed) (List.ne_nil_of_mem hn)
  exact isPart_of_isName ((h.named _ hmem).2 n hn)

/-- What leads to a directory are names of directories, `.` and `..`. -/
theorem isPart_of_follow {ns : List String} (hns : d.follow l ns = .ok m)
    (hm : d.isDirectory m = true) : ∀ n ∈ ns, Path.IsPart n := by
  induction ns generalizing l with
  | nil => nofun
  | cons n ns ih =>
    obtain ⟨_, hrest⟩ := follow_cons hns
    refine List.forall_mem_cons.mpr ⟨?_, ih hrest⟩
    by_cases hdots : n ≠ "." ∧ n ≠ ".."
    · have hdir := isDirectory_of_follow hrest hm
      rw [step_name hdots] at hdir
      have hmem := mem_locations_of_entry (isDirectory_iff.mp hdir) (by simp)
      exact isPart_of_isName ((h.named _ hmem).2 n (by simp))
    · rw [not_and_or, not_not, not_not] at hdots
      rcases hdots with rfl | rfl <;> exact ⟨by decide, by decide⟩

/-- The null device has no suffix. -/
theorem not_device {n : String} (hn : ".dot".toList <:+ n.toList) :
    d.isDevice (l ++ [n]) = false := by
  rw [Bool.eq_false_iff]
  intro hdevice
  have hl := h.device _ (mem_locations_of_entry (isDevice_iff.mp hdevice) (by simp)) hdevice
  obtain ⟨_, rfl⟩ := List.append_singleton_inj.mp (hl.trans (rfl : _ = ["dev"] ++ ["null"]))
  exact absurd hn (by decide)

end Sound

/-! ## Opening files -/

theorem openEmpty_eq (h : d.locate p = .ok l) : d.openEmpty p =
    if p.asksDirectory || d.isDirectory l then .error .isADirectory
    else if d.isDevice l then .ok (d, l)
    else .ok (d.put l (.file ByteArray.empty), l) := by
  simp only [openEmpty, h, bind, Except.bind, throw, throwThe, MonadExceptOf.throw, pure,
    Except.pure]
  cases p.asksDirectory with
  | true => rfl
  | false =>
    rw [if_neg Bool.false_ne_true, Bool.false_or]
    split
    · rename_i hdir
      rw [if_pos (isDirectory_iff.mpr hdir)]
    · rename_i hdevice
      rw [if_neg (by rw [isDirectory_iff, hdevice]; nofun), if_pos (isDevice_iff.mpr hdevice)]
    · rename_i hdir hdevice
      rw [if_neg fun h => hdir (isDirectory_iff.mp h), if_neg fun h => hdevice (isDevice_iff.mp h)]

/-- A file that has been opened is empty, whether or not it was there before, and nothing else has
changed. The null device stays as it is. -/
theorem openEmpty_ok (h : d.openEmpty p = .ok (d', l)) :
    d.locate p = .ok l ∧ p.asksDirectory = false ∧ d.isDirectory l = false ∧
      d' = if d.isDevice l then d else d.put l (.file ByteArray.empty) := by
  cases hlocate : d.locate p with
  | error e => simp [openEmpty, hlocate, bind, Except.bind] at h
  | ok found =>
    rw [openEmpty_eq hlocate] at h
    split at h
    · cases h
    · rename_i hfree
      simp only [Bool.or_eq_true, not_or, Bool.not_eq_true] at hfree
      split at h <;> rename_i hdevice <;> cases h
      · exact ⟨rfl, hfree.1, hfree.2, (if_pos hdevice).symm⟩
      · exact ⟨rfl, hfree.1, hfree.2, (if_neg hdevice).symm⟩

/-- A file that has been opened and filled holds the bytes, and nothing else has changed. -/
theorem fill_openEmpty (h : d.openEmpty p = .ok (d', l)) (bytes : ByteArray) : d'.fill l bytes =
    if d.isDevice l then d else d.put l (.file bytes) := by
  obtain ⟨_, _, hfree, rfl⟩ := openEmpty_ok h
  by_cases hdevice : d.isDevice l = true
  · rw [if_pos hdevice, if_pos hdevice, fill, if_pos hdevice]
  · have hopened : (d.put l (.file ByteArray.empty)).isDevice l ≠ true := by
      rw [Ne, isDevice_iff, entry?_put (ne_nil_of_isDirectory hfree), if_pos rfl]
      nofun
    rw [if_neg hdevice, if_neg hdevice, fill, if_neg hopened, put_put]

/-! ## Where paths lead -/

/-- A disk has the working directory and all directories of another one. -/
structure Keeps (d d' : Disk) : Prop where
  here : d'.here = d.here
  directory : ∀ l, d.isDirectory l = true → d'.isDirectory l = true

theorem Keeps.locate (h : d.Keeps d') (hl : d.locate p = .ok l) : d'.locate p = .ok l := by
  rw [Disk.locate, start, h.here]
  exact follow_mono h.directory hl

theorem Keeps.read (h : d.Keeps d') (hl : d.locate p = .ok l) (hentry : d'.entry? l = d.entry? l) :
    d'.read p = d.read p := by
  simp only [Disk.read, hl, h.locate hl, bind, Except.bind, hentry]

theorem keeps_put (hfree : d.isDirectory l = false) (bytes : ByteArray) :
    d.Keeps (d.put l (.file bytes)) :=
  ⟨here_put d l _, fun _ => isDirectory_put (ne_nil_of_isDirectory hfree) hfree bytes⟩

/-- The path consists of `init` and a name, and `init` leads to a directory, in which an entry of this
name may or may not be. -/
structure Leads (d : Disk) (p : Path) (init : List String) (dir : Location) (n : String) : Prop where
  parts : p.parts = init ++ [n]
  follow : d.follow (d.start p) init = .ok dir
  directory : d.isDirectory dir = true
  name : isName n = true

/-- The path that is read back from the text of an absolute path. -/
def asAbsolute (d : Disk) (p : Path) : Path := .asGiven (p.absolute d.here).text

namespace Leads

variable {init : List String} {dir : Location} {n : String} (h : d.Leads p init dir n)

include h

theorem locate : d.locate p = .ok (dir ++ [n]) := by
  rw [Disk.locate, h.parts, follow_append, h.follow, Except.bind,
    follow_name h.directory (ne_of_isName h.name)]

theorem mono (hkeeps : d.Keeps d') : d'.Leads p init dir n where
  parts := h.parts
  follow := by
    rw [start, hkeeps.here]
    exact follow_mono hkeeps.directory h.follow
  directory := hkeeps.directory dir h.directory
  name := h.name

theorem read_eq : d.read p =
    match d.entry? (dir ++ [n]) with
    | none => .error .notFound
    | some .directory => .error .isADirectory
    | some .nullDevice => if p.asksDirectory then .error .notADirectory else .ok ByteArray.empty
    | some (.file bytes) => if p.asksDirectory then .error .notADirectory else .ok bytes := by
  rcases hentry : d.entry? (dir ++ [n]) with _ | (_ | _ | _) <;>
    simp [read, h.locate, hentry, bind, Except.bind, throw, throwThe, MonadExceptOf.throw, pure,
      Except.pure]

theorem write_eq (bytes : ByteArray) : d.write p bytes =
    if p.asksDirectory || d.isDirectory (dir ++ [n]) then .error .isADirectory
    else if d.isDevice (dir ++ [n]) then .ok d
    else .ok (d.put (dir ++ [n]) (.file bytes)) := by
  have hopen := openEmpty_eq h.locate
  rw [write]
  cases hopened : d.openEmpty p with
  | error e =>
    rw [hopened] at hopen
    split at hopen
    · rename_i hrefused
      cases hopen
      rw [if_pos hrefused]
      rfl
    · split at hopen <;> cases hopen
  | ok opened =>
    obtain ⟨d', l⟩ := opened
    obtain ⟨hlocate, hasks, hfree, _⟩ := openEmpty_ok hopened
    cases h.locate.symm.trans hlocate
    rw [hasks, hfree, Bool.or_false, if_neg Bool.false_ne_true]
    change Except.ok (d'.fill _ bytes) = _
    rw [fill_openEmpty hopened]
    split <;> rfl

/-- A suffix that is no part of a path is replaced in the same directory. -/
theorem withSuffix {suffix : String} (hsuffix : isName (Path.renameSuffix suffix n) = true) :
    d.Leads (p.withSuffix suffix) init dir (Path.renameSuffix suffix n) := by
  rw [Path.withSuffix_of_parts h.parts]
  exact ⟨rfl, h.follow, h.directory, hsuffix⟩

/-- The text of an absolute path leads where the path leads. -/
theorem asAbsolute (hd : d.Sound) : (d.asAbsolute p).asksDirectory = p.asksDirectory ∧
    ∃ init', d.Leads (d.asAbsolute p) init' dir n := by
  have hinit := hd.isPart_of_follow h.follow h.directory
  -- The names from the root on.
  obtain ⟨names, hparts, hnames, hfollow⟩ : ∃ names, (p.absolute d.here).parts = names ++ [n] ∧
      (∀ m ∈ names, Path.IsPart m) ∧ d.follow [] names = .ok dir := by
    have hstart := h.follow
    unfold Path.absolute
    unfold start at hstart
    split at hstart <;> rename_i hslashes
    · refine ⟨d.here ++ init, ?_, List.forall_mem_append.mpr ⟨hd.isPart_here, hinit⟩, ?_⟩
      · rw [if_pos hslashes, h.parts, List.append_assoc]
      · rw [follow_append, hd.follow_here]
        exact hstart
    · exact ⟨init, by rw [if_neg hslashes, h.parts], hinit, hstart⟩
  obtain ⟨k, hk, hgiven⟩ := Path.asGiven_text (p.slashes_absolute d.here)
    (by rw [hparts]; exact List.append_ne_nil_of_right_ne_nil _ (List.cons_ne_nil _ _))
    (by
      rw [hparts, List.forall_mem_append]
      exact ⟨hnames, List.forall_mem_singleton.mpr (isPart_of_isName h.name)⟩)
  rw [Disk.asAbsolute, hgiven]
  refine ⟨?_, names, hparts, ?_, h.directory, h.name⟩
  · unfold Path.absolute
    split <;> rfl
  · rw [start, if_neg hk]
    exact hfollow

theorem read_asAbsolute (hd : d.Sound) : d.read (d.asAbsolute p) = d.read p := by
  obtain ⟨hasks, init', hleads⟩ := h.asAbsolute hd
  rw [hleads.read_eq, h.read_eq, hasks]

end Leads

example : let d := blank ["w"]
    d.locate (.asGiven "a") = .ok ["w", "a"] ∧ d.locate (.asGiven "../w/a") = .ok ["w", "a"] ∧
      d.locate (.asGiven "/../w/./a") = .ok ["w", "a"] ∧
      d.locate (d.asAbsolute (.asGiven "../w/a")) = .ok ["w", "a"] := by
  exact ⟨rfl, rfl, rfl, rfl⟩

theorem isName_renameSuffix_dot {n : String} (h : isName n = true) :
    isName (Path.renameSuffix ".dot" n) = true := by
  have hlast : (Path.renameSuffix ".dot" n).toList.getLast? = some 't' := by
    rw [Path.renameSuffix, String.toList_append, List.getLast?_append]
    rfl
  have hslash : '/' ∉ (Path.renameSuffix ".dot" n).toList := by
    rw [Path.renameSuffix, String.toList_append, String.toList_ofList, List.mem_append]
    rintro (hstem | hdot)
    · have hmem : '/' ∈ n.toList := by
        unfold Path.stem at hstem
        dsimp only at hstem
        split at hstem
        · exact hstem
        · exact List.mem_of_mem_take hstem
      simp only [isName, Bool.and_eq_true, Bool.not_eq_true', List.contains_eq_mem,
        decide_eq_false_iff_not] at h
      exact h.2 hmem
    · exact absurd hdot (by decide)
  have hne (m : String) (hm : m.toList.getLast? ≠ some 't') : Path.renameSuffix ".dot" n ≠ m := by
    intro heq
    exact hm (heq ▸ hlast)
  simp only [isName, Bool.and_eq_true, bne_iff_ne, Bool.not_eq_true', List.contains_eq_mem,
    decide_eq_false_iff_not]
  exact ⟨⟨⟨hne _ (by decide), hne _ (by decide)⟩, hne _ (by decide)⟩, hslash⟩

theorem isFile_iff : d.isFile p = true ↔
    ∃ l bytes, d.locate p = .ok l ∧ d.entry? l = some (.file bytes) := by
  unfold isFile
  constructor
  · intro h
    split at h
    · rename_i l hlocate
      split at h
      · rename_i bytes hfile
        exact ⟨l, bytes, hlocate, hfile⟩
      · cases h
    · cases h
  · rintro ⟨l, bytes, hlocate, hfile⟩
    simp only [hlocate, hfile]

/-- A path to a file leads to its name in a directory. -/
theorem Sound.leads_of_isFile (h : d.Sound) (hp : d.isFile p = true) :
    ∃ init dir n, d.Leads p init dir n := by
  obtain ⟨l, bytes, hlocate, hfile⟩ := isFile_iff.mp hp
  have hnot : d.isDirectory l ≠ true := by
    rw [Ne, isDirectory_iff, hfile]
    nofun
  rcases List.eq_nil_or_concat p.parts with hparts | ⟨init, n, hparts⟩
  · -- Where a path begins there is a directory.
    rw [locate, hparts] at hlocate
    cases hlocate
    exact absurd (h.isDirectory_start p) hnot
  rw [List.concat_eq_append] at hparts
  rw [locate, hparts, follow_append] at hlocate
  cases hdir : d.follow (d.start p) init with
  | error e =>
    rw [hdir] at hlocate
    cases hlocate
  | ok dir =>
    rw [hdir] at hlocate
    obtain ⟨hdirectory, hstep⟩ := follow_cons hlocate
    cases hstep
    by_cases hdots : n ≠ "." ∧ n ≠ ".."
    · rw [step_name hdots] at hfile
      have hname := (h.named _ (mem_locations_of_entry hfile (by simp))).2 n (by simp)
      exact ⟨init, dir, n, hparts, hdir, hdirectory, hname⟩
    · rw [not_and_or, not_not, not_not] at hdots
      rcases hdots with rfl | rfl
      · exact absurd hdirectory hnot
      · exact absurd (h.isDirectory_dropLast hdirectory) hnot

/-- What is found below a directory are entries of it or of the directories in it. -/
theorem mem_below {q : Path} {suffix : String} (hq : q ∈ d.below p suffix) :
    ∃ root ms n, d.locate p = .ok root ∧ q = { p with parts := p.parts ++ ms ++ [n] } ∧
      root ++ ms ++ [n] ∈ d.locations ∧ suffix.toList <:+ n.toList := by
  unfold below at hq
  split at hq
  · rename_i root hlocate
    split at hq
    · obtain ⟨k, hk, rfl⟩ := List.mem_map.mp hq
      rw [List.mem_mergeSort, List.mem_filter] at hk
      obtain ⟨hmem, hbelow⟩ := hk
      simp only [Bool.and_eq_true, List.isPrefixOf_iff_prefix, decide_eq_true_eq] at hbelow
      obtain ⟨⟨⟨ks, rfl⟩, hlength⟩, hends⟩ := hbelow
      rcases List.eq_nil_or_concat ks with rfl | ⟨ms, n, rfl⟩
      · simp at hlength
      · rw [List.concat_eq_append] at hmem hends ⊢
        rw [List.drop_left, ← List.append_assoc]
        rw [← List.append_assoc] at hmem
        refine ⟨root, ms, n, hlocate, rfl, hmem, ?_⟩
        simpa [endsIn, ← List.append_assoc, List.isSuffixOf_iff_suffix] using hends
    · cases hq
  · cases hq

/-- Every entry below a directory whose name ends in the text is found. -/
theorem mem_below_of_entry {root : Location} {ms : List String} {n suffix : String}
    (hroot : d.locate p = .ok root) (hdir : d.isDirectory root = true)
    (hmem : root ++ ms ++ [n] ∈ d.locations) (hends : suffix.toList <:+ n.toList) :
    { p with parts := p.parts ++ ms ++ [n] } ∈ d.below p suffix := by
  unfold below
  simp only [hroot, isDirectory_iff.mp hdir]
  refine List.mem_map.mpr ⟨root ++ ms ++ [n], ?_, ?_⟩
  · rw [List.mem_mergeSort, List.mem_filter]
    refine ⟨hmem, ?_⟩
    rw [Bool.and_eq_true, Bool.and_eq_true, List.isPrefixOf_iff_prefix]
    refine ⟨⟨⟨ms ++ [n], (List.append_assoc ..).symm⟩, ?_⟩, ?_⟩
    · simp only [List.length_append, List.length_singleton, decide_eq_true_eq]
      omega
    · rw [endsIn, List.getLast?_concat]
      exact List.isSuffixOf_iff_suffix.mpr hends
  · rw [List.append_assoc, List.drop_left, List.append_assoc]

theorem Sound.leads_of_entry (h : d.Sound) {q : Path} {root : Location} {ms : List String}
    {n : String} (hroot : d.locate p = .ok root)
    (hq : q = { p with parts := p.parts ++ ms ++ [n] }) (hmem : root ++ ms ++ [n] ∈ d.locations) :
    d.Leads q (p.parts ++ ms) (root ++ ms) n where
  parts := by rw [hq]
  follow := by
    have hstart : d.start q = d.start p := by rw [hq]; rfl
    rw [hstart, follow_append, show d.follow (d.start p) p.parts = .ok root from hroot, Except.bind]
    cases ms with
    | nil => rw [List.append_nil]; rfl
    | cons m ms =>
      have hdir := h.isDirectory_of_prefix hmem
      exact h.follow_entry (mem_locations_of_entry (isDirectory_iff.mp hdir) (by simp))
  directory := h.isDirectory_of_prefix hmem
  name := (h.named _ hmem).2 n (by simp)

end Callscope.Disk
