import Callscope.Proofs.Lookahead.Viability
import Callscope.Proofs.Parse.Outlook

/-!
# What one step can do

Every step of the parser is one of the turns, whatever the text. A decision is for something that the
current token can begin, or that need not read any token, because that holds of all that a lookahead can
choose.
-/

namespace Callscope

namespace Machine

variable {a : Lookahead.Automata} {t : Tables} {p : Pace} {m m' : Machine}

/-! ## Decisions -/

theorem contains_of_choiceOf {k : Kind} {heads : List KindSet} {i : Nat}
    (h : choiceOf k heads = some i) : ∃ s, heads[i]? = some s ∧ s.contains k = true := by
  induction heads generalizing i with
  | nil => cases h
  | cons s ss ih =>
    rw [choiceOf] at h
    split at h
    · rename_i hk
      cases h
      exact ⟨s, rfl, hk⟩
    · obtain ⟨j, hj, rfl⟩ := Option.map_eq_some_iff.mp h
      exact ih hj

theorem not_contains_of_choiceOf {k : Kind} {heads : List KindSet}
    (h : choiceOf k heads = none) : ∀ s ∈ heads, s.contains k = false := by
  induction heads with
  | nil => simp
  | cons s ss ih =>
    rw [choiceOf] at h
    split at h
    · cases h
    · rename_i hk
      simp only [List.mem_cons, forall_eq_or_imp]
      exact ⟨by simpa using hk, ih (Option.map_eq_none_iff.mp h)⟩

/-- What is decided can begin with the current token or be empty, unless it needs no token to speak for
it and the current one speaks for nothing. -/
theorem decideAt_speaks (hsound : ∀ s, (t.edge s).Sound t s) {site i : Nat} {nexts : List Nat}
    {otherwise : Option Nat} (hd : t.Decides site nexts)
    (h : m.decideAt (.ofTables t) site otherwise = .ok (m', i)) :
    (∃ n, nexts[i]? = some n ∧ (t.look n).Admits m.current.kind) ∨
      otherwise = some i ∧ ∀ n ∈ nexts, (t.look n).kinds.contains m.current.kind = false := by
  obtain ⟨d, follow, hdecision, hnexts, hheads⟩ := hd
  have htables : (Lookahead.Automata.ofTables t).tables = t := rfl
  rw [decideAt, htables, hdecision] at h
  dsimp only at h
  split at h
  · split at h
    · rename_i j hj
      cases h
      rcases Option.or_eq_some_iff.mp hj with hj | ⟨hnone, hj⟩
      · obtain ⟨s, hs, hk⟩ := contains_of_choiceOf hj
        rw [hheads, List.getElem?_map] at hs
        obtain ⟨n, hn, rfl⟩ := Option.map_eq_some_iff.mp hs
        refine .inl ⟨n, hn, ?_⟩
        exact (Look.contains_andThen.mp hk).imp_right And.left
      · refine .inr ⟨hj, fun n hn => ?_⟩
        have hhead := not_contains_of_choiceOf hnone _
          (hheads ▸ List.mem_map.mpr ⟨n, hn, rfl⟩)
        rw [Bool.eq_false_iff] at hhead ⊢
        exact fun hk => hhead (Look.contains_andThen.mpr (.inl hk))
    · cases h
  · split at h
    · rename_i alt halt
      cases h
      obtain ⟨⟨hpos, hle⟩, hadmits⟩ := Lookahead.viable_choose hsound hdecision halt
      refine .inl ⟨d.nexts.getD (alt - 1) 0, ?_, hadmits⟩
      rw [← hnexts, List.getD_eq_getElem?_getD, List.getElem?_eq_getElem (by omega)]
      rfl
    · cases h

/-! ## Steps -/

section

variable {task : Task} {todo new : List Task} {m₁ : Machine}

theorem turn_giveUp (next : m.frame.todo = task :: todo) (hpassed : (m.setTodo todo).Passed m₁)
    (hend : m₁.Ended) {site : Nat} {l : Look} (hplace : t.looks[site]? = some l) (tk : Token)
    (pr : Problem) : m.outlook.Turn t (m₁.giveUp (.ofTables t) site tk pr).outlook := by
  have hsite : site < t.looks.size := (Array.getElem?_eq_some_iff.mp hplace).1
  have habandons := abandons_giveUp (a := .ofTables t) hend site tk pr
  rcases hpassed with hsame | ⟨hlt, _, hcallers⟩
  · rw [hsame] at habandons
    obtain ⟨htodo, hcallers, hlt | ⟨hfresh, heq⟩⟩ := habandons
    · exact .read next hlt hcallers (.inl htodo)
    · rw [heq]
      exact .giveUp next hsite hfresh
  · obtain ⟨htodo, hcallers', hcase⟩ := habandons
    refine .read next ?_ (hcallers'.trans hcallers) (.inl htodo)
    rcases hcase with hlt' | ⟨_, heq⟩
    · exact hlt'.trans hlt
    · rw [heq]
      exact hlt

theorem turn_unfold (next : m.frame.todo = task :: todo) (hpassed : (m.setTodo todo).Passed m₁)
    (hunfolds : task.Unfolds new)
    (hapt : m₁.current = m.current → Outlook.Apt t.first m.current.kind task new todo) :
    m.outlook.Turn t (m₁.setTodo (new ++ todo)).outlook := by
  rcases hpassed with hsame | ⟨hlt, _, hcallers⟩
  · have hset : (m₁.setTodo (new ++ todo)).outlook = { m.outlook with todo := new ++ todo } :=
      congrArg (fun o : Outlook => { o with todo := new ++ todo }) hsame
    rw [hset]
    exact .unfold next hunfolds (hapt (congrArg Outlook.current hsame))
  · exact .read next hlt hcallers (.inr (.inr ⟨new, hunfolds, rfl⟩))

theorem turn_skip (next : m.frame.todo = task :: todo) (hpassed : (m.setTodo todo).Passed m₁)
    (hends : task.Ends)
    (hapt : m₁.current = m.current → Outlook.Apt t.first m.current.kind task [] todo) :
    m.outlook.Turn t (m₁.setTodo todo).outlook :=
  turn_unfold next hpassed (.skip hends) hapt

/-- A token that fits is taken. Only the end of the text stays. -/
theorem turn_fit (next : m.frame.todo = task :: todo)
    (hsame : m₁.outlook = (m.setTodo todo).fitted.outlook) :
    m.outlook.Turn t m₁.take.outlook := by
  have hrest : m₁.rest = m.rest := congrArg Outlook.rest hsame
  by_cases hnil : m.rest = []
  · rw [outlook_take_of_rest_nil (hrest.trans hnil), hsame]
    exact .fit next hnil
  · obtain ⟨htodo, hcallers⟩ := tasks_take m₁
    rw [hsame] at htodo hcallers
    have hlt := length_take_lt (m := m₁) (by rwa [hrest])
    rw [hrest] at hlt
    exact .read next hlt hcallers (.inr (.inl htodo))

/-- A token that does not fit. -/
theorem turn_mismatch {i : Item} {site : Nat} (next : m.frame.todo = .item i :: todo)
    (hsame : m₁.outlook = (m.setTodo todo).outlook) (hend : m₁.Ended)
    (hsite : t.looks[site]? = some (Look.ofItem t.first i))
    (hneeded : (Look.ofItem t.first i).ends = false)
    (habsent : (Look.ofItem t.first i).kinds.contains m.current.kind = false)
    {m₂ : Machine} (hm₂ : (∃ n, m₁.dropExtra (.ofTables t) site = some n ∧
        m₂.outlook = n.take.outlook) ∨ m₂.outlook = m₁.outlook ∨
      ∃ tk pr, m₂ = m₁.giveUp (.ofTables t) site tk pr) :
    m.outlook.Turn t m₂.outlook := by
  have hlook := Tables.look_of_getElem? hsite
  have hcurrent : m₁.current = m.current := congrArg Outlook.current hsame
  rcases hm₂ with ⟨n, hn, hm₂⟩ | hm₂ | ⟨tk, pr, rfl⟩
  · obtain ⟨hlt, htodo, hcallers⟩ := shorter_dropExtra (by rw [hlook]; exact hneeded)
      (by rw [hlook, hcurrent]; exact habsent) hn
    obtain ⟨htodo', hcallers'⟩ := tasks_take n
    rw [hm₂]
    rw [hsame] at htodo hcallers
    rw [show m₁.rest = m.rest from congrArg Outlook.rest hsame] at hlt
    refine .read next (Nat.lt_of_le_of_lt ?_ hlt) (hcallers'.trans hcallers)
      (.inr (.inl (htodo'.trans htodo)))
    change n.take.rest.length ≤ _
    rw [rest_take, List.length_tail]
    exact Nat.sub_le ..
  · rw [hm₂, hsame]
    exact .missing next hneeded habsent
  · exact turn_giveUp next (.inl hsame) hend hsite tk pr

theorem eq_second {n₁ n₂ n i : Nat} (h : [n₁, n₂][i]? = some n) (hi : i ≠ 0) : n = n₂ := by
  obtain ⟨j, rfl⟩ := Nat.exists_eq_succ_of_ne_zero hi
  cases j with
  | zero => exact (Option.some.inj h).symm
  | succ j => cases h

theorem turn_stepRepeat (hsound : ∀ s, (t.edge s).Sound t s)
    (next : m.frame.todo = task :: todo) (hpassed : (m.setTodo todo).Passed m₁) (hend : m₁.Ended)
    {body : List Item} (repeats : task.body? = some body) (hends : task.Ends)
    (hlook : task.look t.first = { Look.ofItems t.first body with ends := true })
    (hsolid : (Look.ofItems t.first body).ends = false) {here site n₁ n₂ : Nat} {l : Look}
    (hhere : t.looks[here]? = some l) (hdecides : t.Decides site [n₁, n₂])
    (h₁ : t.look n₁ = Look.ofItems t.first body) (h₂ : t.look n₂ = Task.lookAll t.first todo) :
    m.outlook.Turn t (m₁.stepRepeat (.ofTables t) here site task.subject body todo).outlook := by
  unfold stepRepeat
  split
  · exact turn_giveUp next hpassed hend hhere _ _
  · rename_i m₂ hd
    have hspeaks := decideAt_speaks hsound hdecides hd
    have hround : body.map Task.item ++ .again task.subject :: todo =
        (body.map Task.item ++ [.again task.subject]) ++ todo := by simp
    rw [hround]
    refine turn_unfold next (hpassed.trans (passed_decideAt hd)) (.round repeats) fun hcurrent => ?_
    obtain ⟨k, rfl⟩ := decideAt_ok hd
    have hcurrent' : m₁.current = m.current := hcurrent
    rw [hcurrent'] at hspeaks
    refine .inr (.inl ?_)
    rw [← hround, Task.lookAll_items_append, Look.andThen_of_not_ends hsolid, ← h₁]
    rcases hspeaks with ⟨n, hn, hadmits⟩ | ⟨hother, _⟩
    · cases hn
      exact hadmits
    · cases hother
  · rename_i m₂ i hzero hd
    have hspeaks := decideAt_speaks hsound hdecides hd
    refine turn_skip next (hpassed.trans (passed_decideAt hd)) hends fun hcurrent => .inr ?_
    obtain ⟨k, rfl⟩ := decideAt_ok hd
    have hcurrent' : m₁.current = m.current := hcurrent
    rw [hcurrent'] at hspeaks
    rcases hspeaks with ⟨n, hn, hadmits⟩ | ⟨hother, hsilent⟩
    · obtain rfl := eq_second hn hzero
      refine .inl ?_
      rwa [List.nil_append, ← h₂]
    · refine .inr ⟨rfl, ?_⟩
      simp only [List.mem_cons, List.not_mem_nil, or_false, forall_eq_or_imp, forall_eq, h₁,
        h₂] at hsilent
      rw [Task.lookAll, hlook, Bool.eq_false_iff, ne_eq, Look.contains_andThen]
      simp [hsilent]

theorem turn_stepOperator (next : m.frame.todo = task :: todo)
    (hpassed : (m.setTodo todo).Passed m₁) (hend : m₁.Ended) {site : Nat}
    {ops : List (Nat × List Item)} (climbs : task.subject = .climb site ops) (hends : task.Ends)
    (hlaid : (Item.climb site ops).Laid t p (Task.lookAll t.first todo)) {op : Nat × List Item}
    (hop : op ∈ ops) (hspeaks : m₁.current = m.current →
      (Look.ofItems t.first op.2).Admits m.current.kind) :
    m.outlook.Turn t (m₁.stepOperator (.ofTables t) (.climb site ops) op todo).outlook := by
  obtain ⟨_, hbegins, hguard⟩ := (Item.Laid.climb hlaid).operator op hop
  have hwrapped : (m.setTodo todo).Passed m₁.wrap := hpassed
  unfold stepOperator
  dsimp only
  split
  · have hround : op.2.map Task.item ++ .again (.climb site ops) :: todo =
        (op.2.map Task.item ++ [.again task.subject]) ++ todo := by simp [climbs]
    rw [hround]
    refine turn_unfold next hwrapped (.operator climbs hends hop) fun hcurrent => .inr (.inl ?_)
    rw [← hround, Task.lookAll_items_append,
      Look.andThen_of_not_ends (Item.begins_iff.mp hbegins).1]
    exact hspeaks hcurrent
  · exact turn_giveUp next hwrapped ((stable_ended (a := .ofTables t)).wrap hend) hguard _ _

theorem two_le_length {ops : List (Nat × List Item)} (hne : ops ≠ [])
    (hmany : ∀ op, ops = [op] → False) : 2 ≤ ops.length := by
  cases ops with
  | nil => exact absurd rfl hne
  | cons op more =>
    cases more with
    | nil => exact (hmany op rfl).elim
    | cons => simp

theorem turn_stepClimb (hsound : ∀ s, (t.edge s).Sound t s) (next : m.frame.todo = task :: todo)
    (hpassed : (m.setTodo todo).Passed m₁) (hend : m₁.Ended) {here site : Nat}
    {ops : List (Nat × List Item)} (climbs : task.subject = .climb site ops) (hends : task.Ends)
    (hlaid : (Item.climb site ops).Laid t p (Task.lookAll t.first todo)) {l : Look}
    (hhere : t.looks[here]? = some l) :
    m.outlook.Turn t (m₁.stepClimb (.ofTables t) here site ops todo).outlook := by
  have hclimbs := Item.Laid.climb hlaid
  have hwhich := hclimbs.which
  obtain ⟨n, hn, hdecides⟩ := hclimbs.whether
  have hstable := stable_ended (a := .ofTables t)
  unfold stepClimb
  split
  · exact turn_giveUp next hpassed hend hhere _ _
  · rename_i m₂ hd
    have hspeaks := decideAt_speaks hsound hdecides hd
    have hpassed₂ := hpassed.trans (passed_decideAt hd)
    have hend₂ := hstable.decideAt hend hd
    split
    -- With one operator only, the first decision is for that one.
    · rename_i op
      refine turn_stepOperator next hpassed₂ hend₂ climbs hends hlaid List.mem_cons_self
        fun hcurrent => ?_
      obtain ⟨k, rfl⟩ := decideAt_ok hd
      have hcurrent' : m₁.current = m.current := hcurrent
      rw [hcurrent'] at hspeaks
      rcases hspeaks with ⟨n', hn', hadmits⟩ | ⟨hother, _⟩
      · cases hn'
        rw [Tables.look_of_getElem? hwhich, Look.ofOps, Look.ofOps] at hadmits
        simpa [Look.Admits, Look.or, Look.none] using hadmits
      · cases hother
    · rename_i hmany
      have htwo := two_le_length hclimbs.nonempty hmany
      split
      · exact turn_giveUp next hpassed₂ hend₂ hwhich _ _
      · rename_i m₃ hsync
        have hpassed₃ := hpassed₂.trans (passed_syncEntry hsync)
        have hend₃ := hstable.syncEntry hend₂ hsync
        split
        · exact turn_giveUp next hpassed₃ hend₃ hwhich _ _
        · rename_i m₄ i hd'
          have hspeaks' := decideAt_speaks hsound (hclimbs.among htwo) hd'
          rcases hspeaks' with ⟨n', hn', hadmits⟩ | ⟨hother, _⟩
          · rw [List.getElem?_map] at hn'
            obtain ⟨op, hop, rfl⟩ := Option.map_eq_some_iff.mp hn'
            have hmem := List.mem_of_getElem? hop
            have hget : ops.getD i default = op := by
              rw [List.getD_eq_getElem?_getD, hop, Option.getD_some]
            rw [hget]
            refine turn_stepOperator next (hpassed₃.trans (passed_decideAt hd'))
              (hstable.decideAt hend₃ hd') climbs hends hlaid hmem fun hcurrent => ?_
            obtain ⟨k, rfl⟩ := decideAt_ok hd'
            have hcurrent' : m₃.current = m.current := hcurrent
            rw [hcurrent', Tables.look_of_getElem? (hclimbs.operator op hmem).guard] at hadmits
            exact hadmits
          · cases hother
  · rename_i m₂ i hzero hd
    have hspeaks := decideAt_speaks hsound hdecides hd
    refine turn_skip next (hpassed.trans (passed_decideAt hd)) hends fun hcurrent => .inr (.inl ?_)
    obtain ⟨k, rfl⟩ := decideAt_ok hd
    have hcurrent' : m₁.current = m.current := hcurrent
    rw [hcurrent'] at hspeaks
    rcases hspeaks with ⟨n', hn', hadmits⟩ | ⟨hother, _⟩
    · obtain rfl := eq_second hn' hzero
      rwa [List.nil_append, ← hn]
    · cases hother

theorem turn_stepBranch (hsound : ∀ s, (t.edge s).Sound t s) {site : Nat}
    {alts : List (List Item)} (next : m.frame.todo = .item (.branch site alts) :: todo)
    (hend : m.Ended) (hlaid : (Item.branch site alts).Laid t p (Task.lookAll t.first todo)) :
    m.outlook.Turn t ((m.setTodo todo).stepBranch (.ofTables t) site alts todo).outlook := by
  have hchooses := Item.Laid.branch hlaid
  have hsite := hchooses.here
  have hstable := stable_ended (a := .ofTables t)
  have hend₀ : (m.setTodo todo).Ended := hend
  unfold stepBranch
  split
  · exact turn_giveUp next (.inl rfl) hend₀ hsite _ _
  · rename_i m₁ hsync
    have hpassed := passed_syncEntry hsync
    have hend₁ := hstable.syncEntry hend₀ hsync
    dsimp only
    split
    · exact turn_giveUp next hpassed hend₁ hsite _ _
    · rename_i m₂ i hd
      have hpassed₂ := hpassed.trans (passed_decideAt hd)
      have hspeaks := decideAt_speaks hsound hchooses.decides hd
      rcases hspeaks with ⟨n, hn, hadmits⟩ | ⟨hother, hsilent⟩
      · rw [List.getElem?_map] at hn
        obtain ⟨b, hb, rfl⟩ := Option.map_eq_some_iff.mp hn
        have hmem := List.mem_of_getElem? hb
        have hget : alts.getD i [] = b := by
          rw [List.getD_eq_getElem?_getD, hb, Option.getD_some]
        rw [hget]
        refine turn_unfold next hpassed₂ (.alt hmem) fun hcurrent => .inr (.inl ?_)
        obtain ⟨k, rfl⟩ := decideAt_ok hd
        have hcurrent' : m₁.current = m.current := hcurrent
        rw [hcurrent', hchooses.entry b hmem] at hadmits
        rwa [Task.lookAll_items_append]
      -- The last alternative is empty and taken because no other fits.
      · split at hother
        · rename_i hempty
          cases hother
          obtain ⟨init, rfl⟩ : ∃ init, alts = init ++ [[]] := by
            rcases List.eq_nil_or_concat alts with rfl | ⟨init, last, rfl⟩
            · simp at hempty
            · exact ⟨init, by simpa using hempty⟩
          have hmem : [] ∈ init ++ [([] : List Item)] := List.mem_append_right _ List.mem_cons_self
          have hget : (init ++ [([] : List Item)]).getD ((init ++ [[]]).length - 1) [] = [] := by
            simp
          rw [hget]
          refine turn_unfold next hpassed₂ (.alt hmem) fun hcurrent => .inr (.inr ⟨rfl, ?_⟩)
          obtain ⟨k, rfl⟩ := decideAt_ok hd
          have hcurrent' : m₁.current = m.current := hcurrent
          have hnone : ∀ b ∈ init ++ [[]], ((Look.ofItems t.first b).andThen
              (Task.lookAll t.first todo)).kinds.contains m.current.kind = false := by
            intro b hb
            rw [← hchooses.entry b hb, ← hcurrent']
            exact hsilent _ (List.mem_map.mpr ⟨b, hb, rfl⟩)
          rw [Task.lookAll, Bool.eq_false_iff, ne_eq, Look.contains_andThen]
          rintro (hk | ⟨_, hk⟩)
          · obtain ⟨b, hb, hk⟩ := Look.exists_of_contains_ofAlts hk
            exact Bool.eq_false_iff.mp (hnone b hb) (Look.contains_andThen.mpr (.inl hk))
          · exact Bool.eq_false_iff.mp (hnone [] hmem) (Look.contains_andThen.mpr (.inr ⟨rfl, hk⟩))
        · cases hother

/-- Doing a task is one of the turns. -/
theorem stepTask_turn (hsound : ∀ s, (t.edge s).Sound t s) (hend : m.Ended)
    (next : m.frame.todo = task :: todo) (hplan : Task.Planned t p (task :: todo)) :
    m.outlook.Turn t (m.stepTask (.ofTables t) task todo).outlook := by
  obtain ⟨hlaid, _⟩ := hplan
  have hstable := stable_ended (a := .ofTables t)
  have hend₀ : (m.setTodo todo).Ended := hend
  cases task with
  | item i =>
    cases i with
    | terminal site kind label =>
      have hsite := hlaid.looks _ List.mem_cons_self
      simp only [stepTask, stepTerminal]
      split
      · rw [outlook_setLabel]
        exact turn_fit next rfl
      · rename_i hkind
        refine turn_mismatch next rfl hend₀ hsite rfl
          (Bool.eq_false_iff.mpr fun hk => hkind (KindSet.contains_singleton.mp hk)) ?_
        split
        · rename_i n hn
          exact .inl ⟨n, hn, outlook_setLabel ..⟩
        · split
          · rename_i hs
            have hsupplied := outlook_supplyMissing hs
            rw [outlook_setLabel]
            exact .inr (.inl hsupplied)
          · exact .inr (.inr ⟨_, _, rfl⟩)
    | terminalOf site kinds label =>
      have hsite := hlaid.looks _ List.mem_cons_self
      have hlabelled := outlook_setLabel (m.setTodo todo) label (m.setTodo todo).current.text
      have hend₁ := hstable.setLabel hend₀ label (m.setTodo todo).current.text
      simp only [stepTask, stepTerminalOf]
      generalize (m.setTodo todo).setLabel label (m.setTodo todo).current.text = m₁
        at hlabelled hend₁
      split
      · exact turn_fit next
          (congrArg (fun o : Outlook => { o with gaveUpAt := none, gaveUpSites := [] }) hlabelled)
      · rename_i hkind
        have hcurrent : m₁.current = m.current := congrArg Outlook.current hlabelled
        rw [hcurrent, List.contains_iff_mem] at hkind
        refine turn_mismatch next hlabelled hend₁ hsite rfl
          (Bool.eq_false_iff.mpr fun hk => hkind (KindSet.contains_ofList.mp hk)) ?_
        split
        · rename_i n hn
          exact .inl ⟨n, hn, outlook_setLabel ..⟩
        · split
          · rename_i hs
            rw [outlook_setLabel]
            exact .inr (.inl (outlook_supplyMissing hs))
          · exact .inr (.inr ⟨_, _, rfl⟩)
    | call site rule level label => exact .enter next
    | branch site alts => exact turn_stepBranch hsound next hend hlaid
    | loop site body =>
      obtain ⟨hsite, hrounds, n, hn, hdecides⟩ := Item.Laid.loop hlaid
      simp only [stepTask]
      split
      · exact turn_giveUp next (.inl rfl) hend₀ hsite _ _
      · rename_i m₁ hsync
        exact turn_stepRepeat hsound next (passed_syncEntry hsync) (hstable.syncEntry hend₀ hsync)
          rfl trivial rfl (Item.begins_iff.mp hrounds.begins).1 hsite hdecides hrounds.entry hn
    | loopOnce site body =>
      obtain ⟨hsite, _⟩ := Item.Laid.loopOnce hlaid
      simp only [stepTask]
      split
      · exact turn_giveUp next (.inl rfl) hend₀ hsite _ _
      · rename_i m₁ hsync
        have hround : body.map Task.item ++ .again (.loopOnce site body) :: todo =
            (body.map Task.item ++ [.again (.loopOnce site body)]) ++ todo := by simp
        rw [hround]
        exact turn_unfold next (passed_syncEntry hsync) (.round rfl) fun _ => .inl ⟨site, body, rfl⟩
    | climb site ops =>
      have hsite := (Item.Laid.climb hlaid).here
      simp only [stepTask]
      split
      · exact turn_giveUp next (.inl rfl) hend₀ hsite _ _
      · rename_i m₁ hsync
        exact turn_stepClimb hsound next (passed_syncEntry hsync) (hstable.syncEntry hend₀ hsync)
          rfl trivial hlaid hsite
  | again i =>
    cases i with
    | loop site body =>
      obtain ⟨_, hrounds, n, hn, hdecides⟩ := Item.Laid.loop hlaid
      exact turn_stepRepeat hsound next (passed_syncAgain hend₀ _) (hstable.syncAgain hend₀ _)
        rfl trivial rfl (Item.begins_iff.mp hrounds.begins).1 hrounds.again hdecides hrounds.entry
        hn
    | loopOnce site body =>
      obtain ⟨hsite, hrounds, n, hn, hdecides⟩ := Item.Laid.loopOnce hlaid
      exact turn_stepRepeat hsound next (passed_syncAgain hend₀ _) (hstable.syncAgain hend₀ _)
        rfl trivial rfl (Item.begins_iff.mp hrounds.begins).1 hrounds.again hdecides
        (Tables.look_of_getElem? hsite) hn
    | climb site ops =>
      exact turn_stepClimb hsound next (passed_syncAgain hend₀ _) (hstable.syncAgain hend₀ _)
        rfl trivial hlaid (Item.Laid.climb hlaid).again
    | terminal | terminalOf | call | branch =>
      have hsame : (m.setTodo todo).Passed (m.setTodo todo) := .inl rfl
      refine (turn_skip next hsame trivial fun _ => .inr ?_ :)
      cases hk : (Task.lookAll t.first todo).kinds.contains m.current.kind with
      | true => exact .inl (.inl hk)
      | false =>
        refine .inr ⟨rfl, (congrArg (fun l : Look => l.kinds.contains m.current.kind) ?_).trans hk⟩
        exact Look.done_andThen _

end

/-- Every step is one of the turns. -/
theorem step_turn (hsound : ∀ s, (t.edge s).Sound t s) (hend : m.Ended)
    (hplan : m.outlook.Planned t p) (h : m.step (.ofTables t) = .inl m') :
    m.outlook.Turn t m'.outlook := by
  unfold step at h
  split at h
  · rename_i hdone
    obtain ⟨caller, callers, labels, hcallers, rfl⟩ := exists_of_leave h
    exact Outlook.Turn.leave (t := t) (o := m.outlook) hdone
      (show m.outlook.callers = caller.todo :: callers.map Frame.todo by
        rw [outlook, hcallers]
        rfl)
  · rename_i task todo next
    cases h
    refine stepTask_turn (p := p) hsound hend next ?_
    have hfirst := hplan m.frame.todo List.mem_cons_self
    rwa [next] at hfirst

end Machine

end Callscope
