import Callscope.Proofs.Outline.Change

/-!
# A survey of a tree

Where the declarations and calls of a tree stand, read off the tree alone. Classes and methods are
ranked in the order in which they begin. Every field, method and call is noted with the innermost class
around it; a call also with the methods around it and with how many methods begin before it, which is
all that decides where it is recorded.
-/

namespace Callscope

open Collector

/-- The text of a part; empty if there is no such part. -/
def Tree.partText (t : Tree) (i : Nat) : String :=
  match childText t i with
  | .ok text => text
  | .error _ => ""

theorem Tree.partText_of_childText {t : Tree} {i : Nat} {text : String}
    (h : childText t i = .ok text) : t.partText i = text := by
  rw [partText, h]

/-- A field and the rank of the innermost class around it. -/
structure FieldSite where
  node : Tree
  owner : Option Nat

/-- A method, the rank of the innermost class around it and the nodes around it. -/
structure MethodSite where
  node : Tree
  owner : Option Nat
  around : List Tree

/-- A call, the rank of the innermost class around it, the ranks of the methods around it, innermost
first, and the number of methods that begin before it. -/
structure CallSite where
  node : Tree
  owner : Option Nat
  inside : List Nat
  before : Nat

def FieldSite.field (f : FieldSite) : Field := ⟨f.node.partText 0, f.node.partText 1⟩

namespace MethodSite

def name (m : MethodSite) : String := m.node.partText 1

/-- Methods of one class and one name have the same key. -/
def key (m : MethodSite) : Option Nat × String := (m.owner, m.name)

/-- What is kept of the declaration. -/
def info (m : MethodSite) : Method :=
  match (({} : Collector).methodPart m.node m.around m.name).result with
  | .ok info => info
  | .error _ => {}

/-- Whether no method of the same key comes before the one of a rank. -/
def isFirst (ms : List MethodSite) (j : Nat) : Bool :=
  match ms[j]? with
  | some m => !(ms.take j).any fun m' => m'.key = m.key
  | none => false

/-- The method that has the calls at a point inside of some methods and after the beginnings of `n`
methods. The innermost method has them if no method has begun inside of it so far and it is the first
of its key; if it is not the first, the next one outwards is asked. -/
def holder (ms : List MethodSite) : Nat → List Nat → Option Nat
  | _, [] => none
  | n, j :: inside =>
    if j + 1 = n then if isFirst ms j then some j else holder ms j inside else none

/-- The same by the method itself. -/
def held (ms : List MethodSite) (n : Nat) (inside : List Nat) : Option MethodSite :=
  (holder ms n inside).bind (ms[·]?)

end MethodSite

def CallSite.call (k : CallSite) : Call := callOf k.node (k.node.partText 0)

structure Survey where
  classes : List Tree := []
  fields : List FieldSite := []
  methods : List MethodSite := []
  calls : List CallSite := []

namespace Survey

/-- The survey with one more node in it. -/
def note (s : Survey) (owner : Option Nat) (inside : List Nat) (around : List Tree) (t : Tree) :
    Survey :=
  match t.rule? with
  | some .classDeclaration | some .enumDeclaration => { s with classes := s.classes ++ [t] }
  | some .fieldDeclaration => { s with fields := s.fields ++ [⟨t, owner⟩] }
  | some .methodDeclaration => { s with methods := s.methods ++ [⟨t, owner, around⟩] }
  | some .methodCall => { s with calls := s.calls ++ [⟨t, owner, inside, s.methods.length⟩] }
  | _ => s

/-- The innermost class around the parts of a node. -/
def ownerIn (s : Survey) (owner : Option Nat) (t : Tree) : Option Nat :=
  if t.declaresClass then some s.classes.length else owner

/-- The methods around the parts of a node. -/
def insideIn (s : Survey) (inside : List Nat) (t : Tree) : List Nat :=
  if t.rule? = some .methodDeclaration then s.methods.length :: inside else inside

/-- Where a call is recorded: a class, and a method of it unless it is the class itself. -/
def place (s : Survey) (k : CallSite) : Option Nat × Option String :=
  match MethodSite.held s.methods k.before k.inside with
  | some m => (m.owner, some m.name)
  | none => (k.owner, none)

/-- A method holds a call: it is around the call and the first of its key, and every method that begins
between the two is around the call as well and not the first of its key. -/
def Holds (s : Survey) (k : CallSite) (d : Nat) : Prop :=
  d ∈ k.inside ∧ MethodSite.isFirst s.methods d = true ∧
    ∀ l, d < l → l < k.before → l ∈ k.inside ∧ MethodSite.isFirst s.methods l = false

/-- The calls that are recorded at a place. -/
def callsAt (s : Survey) (p : Option Nat × Option String) : List Call :=
  (s.calls.filter fun k => s.place k = p).map CallSite.call

def fieldsOf (s : Survey) (i : Nat) : List Field :=
  (s.fields.filter fun f => f.owner = some i).map FieldSite.field

/-- The methods of a class, the first of each name, with their calls. -/
def methodsOf (s : Survey) (i : Nat) : Table String Method :=
  (s.methods.zipIdx.filter fun x => x.1.owner = some i && MethodSite.isFirst s.methods x.2).map
    fun x => (x.1.name, { x.1.info with calls := s.callsAt (some i, some x.1.name) })

end Survey

namespace Tree

mutual

/-- The survey after a tree that stands inside of other nodes. -/
def surveyFrom (owner : Option Nat) (inside : List Nat) (around : List Tree) (s : Survey) :
    Tree → Survey
  | node r first last labels children =>
    let self := node r first last labels children
    surveyAll (s.ownerIn owner self) (s.insideIn inside self) (self :: around)
      (s.note owner inside around self) children
  | _ => s

def surveyAll (owner : Option Nat) (inside : List Nat) (around : List Tree) (s : Survey) :
    List Tree → Survey
  | [] => s
  | t :: ts => surveyAll owner inside around (surveyFrom owner inside around s t) ts

end

/-- The survey of a whole tree. -/
def survey (t : Tree) : Survey := surveyFrom none [] [] {} t

end Tree

/-! ## The first methods of their keys -/

namespace MethodSite

variable {ms : List MethodSite} {n d : Nat} {inside : List Nat}

theorem isFirst_append {j : Nat} (h : j < ms.length) (more : List MethodSite) :
    isFirst (ms ++ more) j = isFirst ms j := by
  rw [isFirst, isFirst, List.getElem?_append_left h, List.take_append_of_le_length (by omega)]

/-- A new method is the first of its key if no method so far has the key. -/
theorem isFirst_last (m : MethodSite) :
    isFirst (ms ++ [m]) ms.length = !ms.any fun m' => m'.key = m.key := by
  simp [isFirst]

/-- Methods that begin later do not change who has a call. -/
theorem holder_append (h : n ≤ ms.length) (more : List MethodSite) :
    holder (ms ++ more) n inside = holder ms n inside := by
  induction inside generalizing n with
  | nil => simp [holder]
  | cons j inside ih =>
    rw [holder, holder]
    split
    · rename_i hj
      rw [isFirst_append (by omega), ih (by omega)]
    · rfl

/-- Inside of one method of rank `n` more. -/
theorem holder_enter : holder ms (n + 1) (n :: inside) =
    if isFirst ms n then some n else holder ms n inside := by
  rw [holder, if_pos rfl]

/-- After the end of a method there is none until the next one begins. -/
theorem holder_after (h : ∀ j ∈ inside, j + 1 < n) : holder ms n inside = none := by
  cases inside with
  | nil => rfl
  | cons j inside =>
    have hj := h j List.mem_cons_self
    rw [holder, if_neg (by omega)]

/-- The method that has the calls is the innermost one among those around them that come first for
their keys, and every method that begins after it is one around the calls. -/
theorem holder_eq_some_iff (hsorted : inside.Pairwise (· > ·)) (hn : ∀ j ∈ inside, j < n) :
    holder ms n inside = some d ↔ d ∈ inside ∧ isFirst ms d = true ∧
      ∀ k, d < k → k < n → k ∈ inside ∧ isFirst ms k = false := by
  induction inside generalizing n with
  | nil => simp [holder]
  | cons j inside ih =>
    obtain ⟨hbelow, hsorted⟩ := List.pairwise_cons.mp hsorted
    have hjn := hn j List.mem_cons_self
    rw [holder]
    by_cases hj : j + 1 = n
    · rw [if_pos hj]
      cases hfirst : isFirst ms j with
      | true =>
        simp only [if_true, Option.some.injEq]
        constructor
        · rintro rfl
          exact ⟨List.mem_cons_self, hfirst, fun k hk hkn => by omega⟩
        · rintro ⟨hd, -, hall⟩
          rcases List.mem_cons.mp hd with rfl | hd
          · rfl
          · have hk := (hall j (hbelow d hd) hjn).2
            rw [hfirst] at hk
            cases hk
      | false =>
        rw [if_neg (by simp), ih hsorted hbelow]
        constructor
        · rintro ⟨hd, hf, hall⟩
          refine ⟨List.mem_cons_of_mem _ hd, hf, fun k hdk hkn => ?_⟩
          by_cases hkj : k = j
          · subst hkj
            exact ⟨List.mem_cons_self, hfirst⟩
          · obtain ⟨hmem, hk⟩ := hall k hdk (by omega)
            exact ⟨List.mem_cons_of_mem _ hmem, hk⟩
        · rintro ⟨hd, hf, hall⟩
          rcases List.mem_cons.mp hd with rfl | hd
          · rw [hfirst] at hf
            cases hf
          · refine ⟨hd, hf, fun k hdk hkj => ?_⟩
            obtain ⟨hmem, hk⟩ := hall k hdk (by omega)
            rcases List.mem_cons.mp hmem with rfl | hmem
            · omega
            · exact ⟨hmem, hk⟩
    · -- A method began inside of the innermost one and has ended.
      rw [if_neg hj]
      constructor
      · intro h
        cases h
      · rintro ⟨hd, -, hall⟩
        have hdj : d ≤ j := by
          rcases List.mem_cons.mp hd with rfl | hd
          · exact Nat.le_refl _
          · exact Nat.le_of_lt (hbelow d hd)
        obtain ⟨hmem, -⟩ := hall (j + 1) (by omega) (by omega)
        rcases List.mem_cons.mp hmem with h | h
        · omega
        · have hlt := hbelow _ h
          omega

theorem mem_of_holder (h : holder ms n inside = some d) :
    d ∈ inside ∧ d < n ∧ isFirst ms d = true := by
  induction inside generalizing n with
  | nil => cases h
  | cons j inside ih =>
    rw [holder] at h
    split at h
    · split at h
      · cases h
        exact ⟨List.mem_cons_self, by omega, by assumption⟩
      · obtain ⟨hmem, hlt, hfirst⟩ := ih h
        exact ⟨List.mem_cons_of_mem _ hmem, by omega, hfirst⟩
    · cases h

theorem held_append (h : n ≤ ms.length) (more : List MethodSite) :
    held (ms ++ more) n inside = held ms n inside := by
  rw [held, held, holder_append h]
  cases hd : holder ms n inside with
  | none => rfl
  | some d =>
    have hlt := (mem_of_holder hd).2.1
    exact List.getElem?_append_left (by omega)

/-- A method that begins has the calls that follow, unless one of its key came before. -/
theorem held_enter (ms : List MethodSite) (m : MethodSite) (inside : List Nat) :
    held (ms ++ [m]) (ms.length + 1) (ms.length :: inside) =
      if ms.any (fun m' => m'.key = m.key) then held ms ms.length inside else some m := by
  rw [held, holder_enter, isFirst_last]
  cases ms.any fun m' => m'.key = m.key with
  | false => simp
  | true =>
    rw [if_neg (by simp), if_pos rfl]
    exact held_append (Nat.le_refl _) [m]

theorem held_after (h : ∀ j ∈ inside, j + 1 < n) : held ms n inside = none := by
  rw [held, holder_after h]
  rfl

theorem mem_of_held {m : MethodSite} (h : held ms n inside = some m) : m ∈ ms := by
  obtain ⟨d, _, hd⟩ := Option.bind_eq_some_iff.mp h
  exact List.mem_of_getElem? hd

end MethodSite

namespace Survey

/-- Every class that a site names has been met, and the methods around a call are among those that
began before it, the later ones further in. -/
structure Sound (s : Survey) : Prop where
  fields : ∀ f ∈ s.fields, ∀ i, f.owner = some i → i < s.classes.length
  methods : ∀ m ∈ s.methods, ∀ i, m.owner = some i → i < s.classes.length
  calls : ∀ k ∈ s.calls, ∀ i, k.owner = some i → i < s.classes.length
  before : ∀ k ∈ s.calls, k.before ≤ s.methods.length
  inside : ∀ k ∈ s.calls, k.inside.Pairwise (· > ·) ∧ ∀ j ∈ k.inside, j < k.before

variable {s : Survey} {k : CallSite} {m : MethodSite}

/-- A call that is recorded with a method is recorded with one of the methods. -/
theorem exists_method_of_place {owner : Option Nat} {name : String}
    (h : s.place k = (owner, some name)) : ∃ m ∈ s.methods, m.key = (owner, name) := by
  rw [place] at h
  split at h
  · rename_i m hm
    obtain ⟨rfl, hname⟩ := Prod.mk.inj h
    exact ⟨m, MethodSite.mem_of_held hm, Prod.ext rfl (Option.some.inj hname)⟩
  · cases h

theorem lt_of_place (hs : Sound s) (hk : k ∈ s.calls) {i : Nat} {name : Option String}
    (h : s.place k = (some i, name)) : i < s.classes.length := by
  rw [place] at h
  split at h
  · rename_i m hm
    exact hs.methods m (MethodSite.mem_of_held hm) i (Prod.mk.inj h).1
  · exact hs.calls k hk i (Prod.mk.inj h).1

/-- A call is recorded with a method just if that method holds it. -/
theorem place_eq_method_iff (hs : Sound s) (hk : k ∈ s.calls) {owner : Option Nat}
    {name : String} : s.place k = (owner, some name) ↔
      ∃ d m, s.Holds k d ∧ s.methods[d]? = some m ∧ m.key = (owner, name) := by
  obtain ⟨hsorted, hinside⟩ := hs.inside k hk
  have hholder : ∀ d, MethodSite.holder s.methods k.before k.inside = some d ↔ s.Holds k d :=
    fun d => MethodSite.holder_eq_some_iff hsorted hinside
  rw [place]
  constructor
  · intro h
    split at h
    · rename_i m hm
      obtain ⟨d, hd, hget⟩ := Option.bind_eq_some_iff.mp hm
      obtain ⟨howner, hname⟩ := Prod.mk.inj h
      exact ⟨d, m, (hholder d).mp hd, hget, Prod.ext howner (Option.some.inj hname)⟩
    · cases h
  · rintro ⟨d, m, hd, hget, hkey⟩
    have hheld : MethodSite.held s.methods k.before k.inside = some m := by
      rw [MethodSite.held, (hholder d).mpr hd]
      exact hget
    rw [hheld]
    obtain ⟨howner, hname⟩ := Prod.mk.inj hkey
    exact Prod.ext howner (congrArg some hname)

/-- A call is recorded with a class itself just if no method holds it. -/
theorem place_eq_class_iff (hs : Sound s) (hk : k ∈ s.calls) :
    s.place k = (k.owner, none) ↔ ∀ d, ¬ s.Holds k d := by
  obtain ⟨hsorted, hinside⟩ := hs.inside k hk
  constructor
  · intro h d hd
    have hlt : d < s.methods.length := Nat.lt_of_lt_of_le (hinside d hd.1) (hs.before k hk)
    have hplace := (place_eq_method_iff hs hk).mpr
      ⟨d, s.methods[d], hd, List.getElem?_eq_getElem hlt, rfl⟩
    rw [h] at hplace
    exact absurd (Prod.mk.inj hplace).2 (by simp)
  · intro h
    have hheld : MethodSite.held s.methods k.before k.inside = none := by
      rw [MethodSite.held, Option.bind_eq_none_iff]
      intro d hd
      exact absurd ((MethodSite.holder_eq_some_iff hsorted hinside).mp hd) (h d)
    rw [place, hheld]

/-! ## One more method -/

theorem Sound.addMethod (hs : s.Sound)
    (hm : ∀ i, m.owner = some i → i < s.classes.length) :
    Sound { s with methods := s.methods ++ [m] } := by
  refine ⟨hs.fields, ?_, hs.calls, ?_, hs.inside⟩
  · intro m' hm' i hi
    rcases List.mem_append.mp hm' with hm' | hm'
    · exact hs.methods m' hm' i hi
    · obtain rfl := List.mem_singleton.mp hm'
      exact hm i hi
  · intro k hk
    have hle := hs.before k hk
    simp only [List.length_append, List.length_singleton]
    omega

theorem place_addMethod (h : k.before ≤ s.methods.length) (m : MethodSite) :
    place { s with methods := s.methods ++ [m] } k = s.place k := by
  rw [place, place, MethodSite.held_append h]

theorem callsAt_addMethod (hs : Sound s) (m : MethodSite) (p : Option Nat × Option String) :
    callsAt { s with methods := s.methods ++ [m] } p = s.callsAt p := by
  rw [callsAt, callsAt]
  congr 1
  apply List.filter_congr
  intro k hk
  rw [place_addMethod (hs.before k hk)]

/-- No call is recorded with a method before it begins. -/
theorem callsAt_new (h : (s.methods.any fun m' => m'.key = m.key) = false) :
    s.callsAt (m.owner, some m.name) = [] := by
  rw [callsAt, List.map_eq_nil_iff, List.filter_eq_nil_iff]
  intro k _ hk
  obtain ⟨m', hm', hkey⟩ := exists_method_of_place (of_decide_eq_true hk)
  rw [List.any_eq_false] at h
  exact h m' hm' (decide_eq_true hkey)

theorem methodsOf_addMethod (hs : Sound s) (m : MethodSite) (i : Nat) :
    methodsOf { s with methods := s.methods ++ [m] } i = s.methodsOf i ++
      if m.owner = some i ∧ (s.methods.any fun m' => m'.key = m.key) = false then
        [(m.name, { m.info with calls := [] })] else [] := by
  have hold : s.methods.zipIdx.filter (fun x =>
      x.1.owner = some i && MethodSite.isFirst (s.methods ++ [m]) x.2) =
      s.methods.zipIdx.filter fun x =>
        x.1.owner = some i && MethodSite.isFirst s.methods x.2 := by
    apply List.filter_congr
    rintro ⟨m', j⟩ hx
    rw [MethodSite.isFirst_append (List.snd_lt_of_mem_zipIdx hx)]
  simp only [methodsOf, callsAt_addMethod hs, List.zipIdx_append, List.filter_append,
    List.map_append, hold, Nat.zero_add]
  congr 1
  simp only [List.zipIdx_cons, List.zipIdx_nil, List.filter_cons, List.filter_nil,
    MethodSite.isFirst_last]
  by_cases howner : m.owner = some i
  · cases hnew : s.methods.any fun m' => m'.key = m.key with
    | true => simp
    | false =>
      have hcalls := callsAt_new hnew
      rw [howner] at hcalls
      simp [howner, hcalls]
  · simp [howner]

/-! ## Methods of a class -/

theorem mem_keys_methodsOf (i : Nat) (name : String) :
    name ∈ (s.methodsOf i).keys ↔ ∃ m ∈ s.methods, m.key = (some i, name) := by
  simp only [methodsOf, Table.keys, List.map_map, List.mem_map, List.mem_filter,
    Function.comp_apply, Bool.and_eq_true, decide_eq_true_eq]
  constructor
  · rintro ⟨⟨m, j⟩, ⟨hx, howner, _⟩, rfl⟩
    exact ⟨m, List.fst_mem_of_mem_zipIdx hx, Prod.ext howner rfl⟩
  · rintro ⟨m, hm, hkey⟩
    -- The first method of this key stands at the first index that has it.
    let p : MethodSite → Bool := fun m' => m'.key = (some i, name)
    have hlt : s.methods.findIdx p < s.methods.length :=
      List.findIdx_lt_length_of_exists ⟨m, hm, decide_eq_true hkey⟩
    have hfound : p s.methods[s.methods.findIdx p] = true := List.findIdx_getElem
    have hkey' := of_decide_eq_true hfound
    refine ⟨(s.methods[s.methods.findIdx p], s.methods.findIdx p), ⟨?_, ?_, ?_⟩, ?_⟩
    · exact List.mk_mem_zipIdx_iff_getElem?.mpr (List.getElem?_eq_getElem hlt)
    · exact (Prod.mk.inj hkey').1
    · rw [MethodSite.isFirst, List.getElem?_eq_getElem hlt]
      simp only [Bool.not_eq_true', List.any_eq_false, hkey']
      intro m' hm'
      obtain ⟨j, hj, rfl⟩ := List.getElem_of_mem hm'
      have hjlt : j < s.methods.findIdx p := by
        rw [List.length_take] at hj
        omega
      rw [List.getElem_take]
      have hnot := List.not_of_lt_findIdx hjlt
      simpa [p] using hnot
    · exact (Prod.mk.inj hkey').2

theorem nodup_keys_methodsOf (i : Nat) : (s.methodsOf i).keys.Nodup := by
  rw [methodsOf, Table.keys, List.map_map, List.Nodup, List.pairwise_map, List.pairwise_filter]
  rw [List.pairwise_iff_getElem]
  intro a b ha hb hab hx hy hname
  simp only [List.getElem_zipIdx, Nat.zero_add, Bool.and_eq_true, decide_eq_true_eq,
    Function.comp_apply, List.length_zipIdx] at hx hy hname ha hb
  obtain ⟨howner, hfirst⟩ := hy
  rw [MethodSite.isFirst, List.getElem?_eq_getElem hb] at hfirst
  simp only [Bool.not_eq_true', List.any_eq_false] at hfirst
  refine hfirst s.methods[a] ?_ (decide_eq_true (Prod.ext (hx.1.trans howner.symm) hname))
  rw [List.mem_take_iff_getElem]
  exact ⟨a, by omega, rfl⟩

/-! ## One more call, field or class -/

theorem Sound.addCall (hs : s.Sound) (howner : ∀ i, k.owner = some i → i < s.classes.length)
    (hbefore : k.before ≤ s.methods.length)
    (hinside : k.inside.Pairwise (· > ·) ∧ ∀ j ∈ k.inside, j < k.before) :
    Sound { s with calls := s.calls ++ [k] } := by
  have hcases : ∀ k' ∈ s.calls ++ [k], k' ∈ s.calls ∨ k' = k := by
    intro k' hk'
    rcases List.mem_append.mp hk' with h | h
    · exact Or.inl h
    · exact Or.inr (List.mem_singleton.mp h)
  refine ⟨hs.fields, hs.methods, ?_, ?_, ?_⟩
  · intro k' hk'
    rcases hcases k' hk' with h | rfl
    · exact hs.calls k' h
    · exact howner
  · intro k' hk'
    rcases hcases k' hk' with h | rfl
    · exact hs.before k' h
    · exact hbefore
  · intro k' hk'
    rcases hcases k' hk' with h | rfl
    · exact hs.inside k' h
    · exact hinside

theorem Sound.addField (hs : s.Sound) {f : FieldSite}
    (howner : ∀ i, f.owner = some i → i < s.classes.length) :
    Sound { s with fields := s.fields ++ [f] } := by
  refine ⟨?_, hs.methods, hs.calls, hs.before, hs.inside⟩
  intro f' hf' i hi
  rcases List.mem_append.mp hf' with hf' | hf'
  · exact hs.fields f' hf' i hi
  · exact howner i (List.mem_singleton.mp hf' ▸ hi)

theorem Sound.addClass (hs : s.Sound) (t : Tree) : Sound { s with classes := s.classes ++ [t] } := by
  have hmore : ∀ i, i < s.classes.length → i < (s.classes ++ [t]).length := by
    intro i hi
    rw [List.length_append, List.length_singleton]
    omega
  exact ⟨fun f hf i hi => hmore i (hs.fields f hf i hi),
    fun m hm i hi => hmore i (hs.methods m hm i hi),
    fun k hk i hi => hmore i (hs.calls k hk i hi), hs.before, hs.inside⟩

theorem callsAt_addCall (s : Survey) (k : CallSite) (p : Option Nat × Option String) :
    callsAt { s with calls := s.calls ++ [k] } p =
      s.callsAt p ++ if s.place k = p then [k.call] else [] := by
  have hplace : place { s with calls := s.calls ++ [k] } = s.place := rfl
  simp only [callsAt, hplace, List.filter_append, List.map_append, List.filter_cons,
    List.filter_nil, decide_eq_true_eq]
  by_cases h : s.place k = p <;> simp [h]

theorem methodsOf_addCall {i : Nat} {name : String} (h : s.place k = (some i, some name)) :
    methodsOf { s with calls := s.calls ++ [k] } i =
      (s.methodsOf i).modify name fun m => { m with calls := m.calls ++ [k.call] } := by
  rw [Table.modify_eq_map (nodup_keys_methodsOf i)]
  simp only [methodsOf, callsAt_addCall, h, List.map_map]
  apply List.map_congr_left
  rintro ⟨m, j⟩ _
  by_cases hm : name = m.name <;> simp [hm]

theorem methodsOf_addCall_of_ne {i : Nat} (h : ∀ name, s.place k ≠ (some i, some name)) :
    methodsOf { s with calls := s.calls ++ [k] } i = s.methodsOf i := by
  simp only [methodsOf, callsAt_addCall]
  apply List.map_congr_left
  rintro ⟨m, j⟩ _
  simp [h m.name]

theorem fieldsOf_addField (s : Survey) (f : FieldSite) (i : Nat) :
    fieldsOf { s with fields := s.fields ++ [f] } i =
      s.fieldsOf i ++ if f.owner = some i then [f.field] else [] := by
  simp only [fieldsOf, List.filter_append, List.map_append, List.filter_cons, List.filter_nil]
  by_cases h : f.owner = some i <;> simp [h]

/-- Nothing belongs to a class that has not been met. -/
theorem fieldsOf_of_le (hs : Sound s) {i : Nat} (hi : s.classes.length ≤ i) :
    s.fieldsOf i = [] := by
  rw [fieldsOf, List.map_eq_nil_iff, List.filter_eq_nil_iff]
  intro f hf howner
  have hlt := hs.fields f hf i (of_decide_eq_true howner)
  omega

theorem methodsOf_of_le (hs : Sound s) {i : Nat} (hi : s.classes.length ≤ i) :
    s.methodsOf i = [] := by
  rw [methodsOf, List.map_eq_nil_iff, List.filter_eq_nil_iff]
  rintro ⟨m, j⟩ hx howner
  rw [Bool.and_eq_true] at howner
  have hlt := hs.methods m (List.fst_mem_of_mem_zipIdx hx) i (of_decide_eq_true howner.1)
  omega

theorem callsAt_of_le (hs : Sound s) {i : Nat} (hi : s.classes.length ≤ i)
    (name : Option String) : s.callsAt (some i, name) = [] := by
  rw [callsAt, List.map_eq_nil_iff, List.filter_eq_nil_iff]
  intro k hk hplace
  have hlt := lt_of_place hs hk (of_decide_eq_true hplace)
  omega

end Survey

end Callscope
