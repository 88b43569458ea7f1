import Callscope.Proofs.Files.Soundness
import Callscope.Proofs.Outline.Characters
import Callscope.Run.Job

/-!
# All or nothing

The output of a job is opened, and so emptied, before the graph is drawn and encoded. All that can fail
comes earlier: the input cannot be read, is no text or has a fault, or the output cannot be opened. What
is left to do then always succeeds, for a graph has no characters but those of the text and plain ones.
So a job that fails leaves the disk as it was, and one that succeeds has changed nothing but its output.
-/

namespace Callscope

/-! ## Texts as bytes -/

namespace Text

theorem mapM_charOf? (cs : List Char) : (cs.map Char.val).mapM charOf? = some cs := by
  induction cs with
  | nil => rfl
  | cons c cs ih =>
    have hc : charOf? c.val = some c := dif_pos c.valid
    simp [List.mapM_cons, hc, ih]

/-- A text has no code points but those of characters, so it can be encoded. -/
theorem encode?_codes (s : String) : encode? (codes s) = some s.toUTF8 := by
  rw [encode?, codes, mapM_charOf?, Option.map_some, String.ofList_toList]

example : encode? [0x61, 0xD800] = none := by decide

/-- Decoding is strict: the bytes are those of a text, or there is none. -/
theorem fromUTF8?_eq_some_iff {bytes : ByteArray} {text : String} :
    String.fromUTF8? bytes = some text ↔ text.toUTF8 = bytes := by
  unfold String.fromUTF8?
  constructor
  · intro h
    split at h
    · exact Option.some.inj h ▸ rfl
    · cases h
  · rintro rfl
    exact dif_pos text.isValidUTF8

end Text

/-! ## Writing a file -/

namespace Disk

variable {d d' : Disk} {p : Path} {l : Location}

/-- Opening and filling a file changes no other one. -/
theorem entry?_fill (h : d.openEmpty p = .ok (d', l)) (bytes : ByteArray) {m : Location}
    (hm : m ≠ l) : entry? (d'.fill l bytes) m = d.entry? m := by
  obtain ⟨_, _, hfree, _⟩ := openEmpty_ok h
  rw [fill_openEmpty h]
  split
  · rfl
  · rw [entry?_put (ne_nil_of_isDirectory hfree), if_neg hm]

/-- The file is in no directory's place. -/
theorem keeps_fill (h : d.openEmpty p = .ok (d', l)) (bytes : ByteArray) :
    d.Keeps (d'.fill l bytes) := by
  obtain ⟨_, _, hfree, _⟩ := openEmpty_ok h
  rw [fill_openEmpty h]
  split
  · exact ⟨rfl, fun _ hm => hm⟩
  · exact keeps_put hfree bytes

/-- A file that has been filled holds the bytes. -/
theorem read_fill (h : d.openEmpty p = .ok (d', l)) (hdevice : d.isDevice l = false)
    (bytes : ByteArray) : (d'.fill l bytes).read p = .ok bytes := by
  obtain ⟨hlocate, hasks, hfree, _⟩ := openEmpty_ok h
  have hlocated := (keeps_fill h bytes).locate hlocate
  have hentry : entry? (d'.fill l bytes) l = some (.file bytes) := by
    rw [fill_openEmpty h, hdevice, if_neg Bool.false_ne_true, entry?_put (ne_nil_of_isDirectory hfree), if_pos rfl]
  simp [read, hlocated, hentry, hasks, bind, Except.bind, pure, Except.pure]

end Disk

/-! ## Jobs -/

namespace Job

variable {d : Disk} {input : Path} {text : String} {o : Outline}

theorem result_bind {α β : Type} (x : Job α) (f : α → Job β) :
    (x >>= f).result = x.result.bind fun a => (f a).result := by
  change (Job.bind x f).result = _
  unfold Job.bind
  cases x.result <;> rfl

/-- The outline of the file at a path. -/
def outlineAt (d : Disk) (input : Path) : Except Failure Outline :=
  ((d.read input).mapError Failure.file).bind fun bytes => (outlined bytes).result

theorem deliver_of_error {output : Path} {e : FileError} (h : d.openEmpty output = .error e)
    (o : Outline) : deliver d o output = (d, .error (.file e)) := by
  rw [deliver, h]

/-- A graph can always be encoded: nothing but opening the output can fail. -/
theorem deliver_of_ok {output : Path} {emptied : Disk} {l : Location}
    (h : d.openEmpty output = .ok (emptied, l)) (o : Outline) :
    deliver d o output = (emptied.fill l o.dot.toUTF8, .ok ()) := by
  rw [deliver, h]
  dsimp only
  rw [Text.encode?_codes]

theorem perform_eq (d : Disk) (input : Path) (output : Option Path) :
    ((perform d input output).1, (perform d input output).2.result) =
      match outlineAt d input, output with
      | .error e, _ => (d, .error e)
      | .ok _, none => (d, .ok ())
      | .ok o, some path => deliver d o path := by
  have hread : (ofFile (d.read input) >>= outlined).result = outlineAt d input :=
    result_bind _ _
  rw [← hread]
  unfold perform
  dsimp only
  cases (ofFile (d.read input) >>= outlined).result with
  | error e => rfl
  | ok o => cases output <;> rfl

/-- A file holds a text, and collecting the outline of the text ends without a fault. -/
structure Outlines (d : Disk) (input : Path) (text : String) (o : Outline) : Prop where
  read : d.read input = .ok text.toUTF8
  collected : ∃ p, Parse.ofText? text .compilationUnit 0 = some p ∧
    (Collector.collect {} p.tree).fault = none ∧
    (Collector.collect {} p.tree).collector.outline = o

theorem outlined_eq_ok_iff {bytes : ByteArray} : (outlined bytes).result = .ok o ↔
    ∃ text : String, text.toUTF8 = bytes ∧ ∃ p, Parse.ofText? text .compilationUnit 0 = some p ∧
      (Collector.collect {} p.tree).fault = none ∧
      (Collector.collect {} p.tree).collector.outline = o := by
  simp only [← Text.fromUTF8?_eq_some_iff, outlined]
  cases String.fromUTF8? bytes with
  | none => simp
  | some text =>
    cases hp : Parse.ofText? text .compilationUnit 0 with
    | none => simp [hp]
    | some p =>
      cases hfault : (Collector.collect {} p.tree).fault with
      | some f => simp [hp, hfault]
      | none => simp [hp, hfault]

theorem outlineAt_eq_ok_iff : outlineAt d input = .ok o ↔ ∃ text, Outlines d input text o := by
  unfold outlineAt
  cases hread : d.read input with
  | error e =>
    refine ⟨nofun, fun ⟨text, h⟩ => ?_⟩
    cases hread.symm.trans h.read
  | ok bytes =>
    refine outlined_eq_ok_iff.trans (exists_congr fun text => ⟨fun ⟨hbytes, h⟩ => ⟨?_, h⟩, fun h => ?_⟩)
    · rw [hread, hbytes]
    · exact ⟨Except.ok.inj (h.read.symm.trans hread), h.collected⟩

/-- The output has been opened and filled with a text, and nothing else has changed. If it is the null
device, nothing at all has changed. -/
structure Delivered (d left : Disk) (output : Path) (l : Location) (text : String) : Prop where
  located : d.locate output = .ok l
  opened : ∃ emptied, d.openEmpty output = .ok (emptied, l)
  filled : d.isDevice l = false → left.read output = .ok text.toUTF8
  dropped : d.isDevice l = true → left = d
  others : ∀ m, m ≠ l → left.entry? m = d.entry? m
  otherPaths : ∀ q m, d.locate q = .ok m → m ≠ l → left.read q = d.read q
  here : left.here = d.here

theorem delivered_fill {output : Path} {emptied : Disk} {l : Location}
    (h : d.openEmpty output = .ok (emptied, l)) (text : String) :
    Delivered d (emptied.fill l text.toUTF8) output l text where
  located := (Disk.openEmpty_ok h).1
  opened := ⟨emptied, h⟩
  filled hdevice := Disk.read_fill h hdevice _
  dropped hdevice := by rw [Disk.fill_openEmpty h, if_pos hdevice]
  others _ hm := Disk.entry?_fill h _ hm
  otherPaths _ _ hq hm := (Disk.keeps_fill h _).read hq (Disk.entry?_fill h _ hm)
  here := (Disk.keeps_fill h _).here

theorem target_eq_none_iff {output : Option String} :
    target output = none ↔ output = none ∨ output = some "" := by
  cases output with
  | none => simp [target]
  | some s => by_cases hs : s = "" <;> simp [target, hs]

theorem target_eq_some_iff {output : Option String} {path : Path} :
    target output = some path ↔ ∃ s, output = some s ∧ s ≠ "" ∧ path = .asGiven s := by
  cases output with
  | none => simp [target]
  | some s =>
    by_cases hs : s = ""
    · simp [target, hs]
    · simp [target, Option.filter, hs, @eq_comm _ path]

/-- A job fails and leaves the disk as it was, or it succeeds and has changed nothing but its output, which
holds the graph of the input. It succeeds exactly if the input is a text without a fault and the output, if
there is one, can be opened: a graph can always be drawn and encoded. -/
theorem convert_all_or_nothing (d : Disk) (input : String) (output : Option String) :
    let left := (convert d input output).1
    let result := (convert d input output).2.result
    (∃ e, result = .error e) ∧ left = d ∧
      ¬ (∃ text o, Outlines d (.asGiven input) text o ∧
        ∀ s, output = some s → s ≠ "" → ∃ opened, d.openEmpty (.asGiven s) = .ok opened) ∨
    result = .ok () ∧ ∃ text o, Outlines d (.asGiven input) text o ∧
      (∀ c ∈ o.dot.toList, c ∈ text.toList ∨ Text.isPlain c = true) ∧
      Text.encode? (Text.codes o.dot) = some o.dot.toUTF8 ∧
      (output = none ∨ output = some "" → left = d) ∧
      ∀ s, output = some s → s ≠ "" → ∃ l, Delivered d left (.asGiven s) l o.dot := by
  intro left result
  have hperform := perform_eq d (.asGiven input) (target output)
  change (left, result) = _ at hperform
  cases houtline : outlineAt d (.asGiven input) with
  | error e =>
    rw [houtline] at hperform
    obtain ⟨hleft, hresult⟩ := Prod.mk.inj hperform
    refine .inl ⟨⟨e, hresult⟩, hleft, fun ⟨text, o, houtlines, _⟩ => ?_⟩
    cases houtline.symm.trans (outlineAt_eq_ok_iff.mpr ⟨text, houtlines⟩)
  | ok o =>
    obtain ⟨text, houtlines⟩ := outlineAt_eq_ok_iff.mp houtline
    have hchars : ∀ c ∈ o.dot.toList, c ∈ text.toList ∨ Text.isPlain c = true := by
      obtain ⟨p, hp, _, rfl⟩ := houtlines.collected
      exact fun c hc => Collector.mem_or_plain_of_dot hp hc
    rw [houtline] at hperform
    cases htarget : target output with
    | none =>
      rw [htarget] at hperform
      obtain ⟨hleft, hresult⟩ := Prod.mk.inj hperform
      refine .inr ⟨hresult, text, o, houtlines, hchars, Text.encode?_codes _, fun _ => hleft, ?_⟩
      intro s hs hne
      cases (target_eq_some_iff.mpr ⟨s, hs, hne, rfl⟩).symm.trans htarget
    | some path =>
      obtain ⟨s, rfl, hne, rfl⟩ := target_eq_some_iff.mp htarget
      rw [htarget] at hperform
      dsimp only at hperform
      cases hopen : d.openEmpty (.asGiven s) with
      | error e =>
        rw [deliver_of_error hopen] at hperform
        obtain ⟨hleft, hresult⟩ := Prod.mk.inj hperform
        refine .inl ⟨⟨.file e, hresult⟩, hleft, fun ⟨_, _, _, hready⟩ => ?_⟩
        obtain ⟨opened, hopened⟩ := hready s rfl hne
        cases hopen.symm.trans hopened
      | ok opened =>
        obtain ⟨emptied, l⟩ := opened
        rw [deliver_of_ok hopen] at hperform
        obtain ⟨hleft, hresult⟩ := Prod.mk.inj hperform
        refine .inr ⟨hresult, text, o, houtlines, hchars, Text.encode?_codes _, fun hnone => ?_,
          fun s' hs' _ => ⟨l, ?_⟩⟩
        · cases htarget.symm.trans (target_eq_none_iff.mpr hnone)
        · cases hs'
          rw [hleft]
          exact delivered_fill hopen o.dot

end Job

end Callscope
