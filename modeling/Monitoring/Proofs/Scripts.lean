import Monitoring.Client.Scripts
import Monitoring.Proofs.Config

/-!
# `Monitoring.Proofs.Scripts`: the map that `main` installs in SCRIPTS2

`main` fills a local map, script after script, and copies it behind the last one. A script whose
times cannot be taken apart raises, and the map is lost. `Accepts` says of one child of "scripts"
that it does not raise. This does not depend on the others: `configure_scripts2` gives SCRIPTS2 as
the entries of all children if every one is accepted, and as the empty map otherwise.
-/

set_option autoImplicit false

namespace Monitoring.Client

open Monitoring.Lib

/-! ### One script -/

/-- The child is a script. Others, such as comments, are passed over. -/
abbrev IsScript (v : Bytes × PTree) : Prop := v.1 = str "script"

/-- `_cmd`. -/
def commandOf (v : Bytes × PTree) : Bytes :=
  ((v.2.getChildOptional (str "command")).map PTree.data).getD []

/-- `_times`. -/
def timesOf (v : Bytes × PTree) : Bytes := v.2.getString (str "time") (str "notfound")

/-- The item has a day of the week, from 0 to 6, an hour and a minute. There may be more behind
them. -/
def ItemAccepted (item : Bytes) : Prop :=
  3 ≤ (splitCompress (ch ':') item).length ∧
    0 ≤ atoi ((splitCompress (ch ':') item).headD []) ∧
    atoi ((splitCompress (ch ':') item).headD []) < 7

instance (item : Bytes) : Decidable (ItemAccepted item) :=
  inferInstanceAs (Decidable (_ ∧ _ ∧ _))

/-- The child does not raise: a script has a command, and all its items are accepted. If both its
texts are empty, nobody looks at the items. -/
def Accepts (v : Bytes × PTree) : Prop :=
  IsScript v → (v.2.getChildOptional (str "command")).isSome = true ∧
    (timesOf v = [] ∧ commandOf v = [] ∨
      ∀ item ∈ splitCompress (ch ',') (timesOf v), ItemAccepted item)

instance (v : Bytes × PTree) : Decidable (Accepts v) := inferInstanceAs (Decidable (_ → _ ∧ _))

/-- `_weekdays`, for times that are accepted. -/
def weekdaysOf (times : Bytes) : List Bytes :=
  (splitCompress (ch ',') times).foldl (passOr setWeekday) (List.replicate 7 (str "0:00"))

/-- What an accepted child puts into the map. -/
def scriptEntry (v : Bytes × PTree) : Option (Bytes × List Bytes) :=
  if IsScript v ∧ ¬ (timesOf v = [] ∧ commandOf v = []) then
    some (commandOf v, weekdaysOf (timesOf v))
  else none

/-- The map behind children that are all accepted. -/
def installed (cs : List (Bytes × PTree)) : Table Bytes (List Bytes) :=
  (cs.filterMap scriptEntry).foldl (fun scripts e => scripts.insertNew e.1 e.2) ∅

/-- There is a slot for each day, and a colon in each slot. -/
structure Slots (weekdays : List Bytes) : Prop where
  length : weekdays.length = 7
  colon : ∀ s ∈ weekdays, ch ':' ∈ s

theorem slots_initial : Slots (List.replicate 7 (str "0:00")) :=
  ⟨rfl, by decide⟩

section
variable {weekdays : List Bytes} {item : Bytes}

/-- An accepted item fills a slot, or all of them. -/
theorem setWeekday_ok (hslots : Slots weekdays) (h : ItemAccepted item) :
    ∃ weekdays', setWeekday weekdays item = .ok weekdays' ∧ Slots weekdays' := by
  obtain ⟨hfields, h0, h7⟩ := h
  obtain ⟨hlen, hcolon⟩ := hslots
  unfold setWeekday
  dsimp only
  rw [List.getElem?_eq_getElem (show 1 < (splitCompress (ch ':') item).length by omega),
    List.getElem?_eq_getElem (show 2 < (splitCompress (ch ':') item).length by omega)]
  dsimp only
  split
  · refine ⟨_, rfl, by rw [List.length_map, hlen], fun s hs => ?_⟩
    obtain ⟨-, -, rfl⟩ := List.mem_map.mp hs
    simp
  · rw [if_pos ⟨h0, by rw [hlen]; exact h7⟩]
    refine ⟨_, rfl, by rw [List.length_set, hlen], fun s hs => ?_⟩
    rcases List.mem_or_eq_of_mem_set hs with hs | rfl
    · exact hcolon s hs
    · simp

theorem setWeekday_error (hslots : Slots weekdays) (h : ¬ ItemAccepted item) :
    ∃ e, setWeekday weekdays item = .error e := by
  unfold setWeekday
  dsimp only
  split
  · rename_i hour minute hhour hminute
    have hfields : 3 ≤ (splitCompress (ch ':') item).length :=
      (List.getElem?_eq_some_iff.mp hminute).1
    -- the fields are there, so it is the day
    have hday : ¬ (0 ≤ atoi ((splitCompress (ch ':') item).headD []) ∧
        atoi ((splitCompress (ch ':') item).headD []) < 7) := fun hday => h ⟨hfields, hday⟩
    rw [if_neg (by omega), if_neg (by rw [hslots.length]; exact hday)]
    exact ⟨_, rfl⟩
  · exact ⟨_, rfl⟩

/-- The loop over the items of accepted times. -/
theorem foldlM_setWeekday {times : Bytes}
    (h : ∀ item ∈ splitCompress (ch ',') times, ItemAccepted item) :
    (splitCompress (ch ',') times).foldlM setWeekday (List.replicate 7 (str "0:00"))
      = .ok (weekdaysOf times) ∧ Slots (weekdaysOf times) :=
  foldlM_of_accepts (fun _ _ hslots hitem => setWeekday_ok hslots hitem) slots_initial h

/-- No `at` of `execute_script` raises on slots that `main` has filled. -/
theorem scriptDue_isSome (h : Slots weekdays) (now : LocalTime) :
    ∃ due, scriptDue weekdays now = some due := by
  have hlt : now.wday < weekdays.length := by
    rw [h.length]
    exact now.wday_lt
  obtain ⟨a, b, hsplit⟩ := List.append_of_mem (h.colon _ (List.getElem_mem hlt))
  have hlen : 2 ≤ (parseScript2 weekdays[now.wday] (ch ':')).length := by
    have ha := List.length_pos_iff.mpr (List.splitOnP_ne_nil (· == ch ':') a)
    have hb := List.length_pos_iff.mpr (List.splitOnP_ne_nil (· == ch ':') b)
    unfold parseScript2
    rw [hsplit, List.splitOn_eq_splitOnP, List.splitOnP_append_cons a b (by simp),
      List.length_append]
    omega
  unfold scriptDue
  rw [List.getElem?_eq_getElem hlt, Option.bind_some]
  dsimp only
  rw [List.getElem?_eq_getElem (show 0 < _ by omega),
    List.getElem?_eq_getElem (show 1 < _ by omega)]
  exact ⟨_, rfl⟩

end

section
variable {scripts : Table Bytes (List Bytes)} {v : Bytes × PTree}

/-- An accepted child puts its entry into the map, unless the command is there already. -/
theorem addScript_ok (h : Accepts v) : addScript scripts v
    = .ok (match scriptEntry v with
      | none => scripts
      | some e => scripts.insertNew e.1 e.2) := by
  unfold addScript scriptEntry
  by_cases hscript : IsScript v
  · obtain ⟨hcommand, hitems⟩ := h hscript
    obtain ⟨child, hchild⟩ := Option.isSome_iff_exists.mp hcommand
    have hcmd : child.data = commandOf v := by
      unfold commandOf
      rw [hchild]
      rfl
    rw [if_pos hscript, hchild]
    dsimp only
    change (if timesOf v ≠ [] ∨ child.data ≠ [] then _ else _) = _
    rw [hcmd]
    by_cases hempty : timesOf v = [] ∧ commandOf v = []
    · rw [if_neg (by simp [hempty]), if_neg (fun hh => hh.2 hempty)]
    · rw [if_pos (not_and_or.mp hempty), if_pos ⟨hscript, hempty⟩]
      change (List.foldlM setWeekday _ (splitCompress (ch ',') (timesOf v))).map _ = _
      rw [(foldlM_setWeekday (hitems.resolve_left hempty)).1]
      rfl
  · rw [if_neg hscript, if_neg fun hh => hscript hh.1]

theorem addScript_error (h : ¬ Accepts v) : ∃ e, addScript scripts v = .error e := by
  obtain ⟨hscript, hnot⟩ := Classical.not_imp.mp h
  unfold addScript
  rw [if_pos hscript]
  cases hchild : v.2.getChildOptional (str "command") with
  | none => exact ⟨_, rfl⟩
  | some child =>
      rw [hchild] at hnot
      have hcmd : child.data = commandOf v := by
        unfold commandOf
        rw [hchild]
        rfl
      obtain ⟨hempty, hitems⟩ := not_or.mp fun hh => hnot ⟨rfl, hh⟩
      obtain ⟨item, hitem, hraise⟩ : ∃ item ∈ splitCompress (ch ',') (timesOf v),
          ¬ ItemAccepted item := by
        by_contra hall
        exact hitems fun item hitem => by_contra fun hraise => hall ⟨item, hitem, hraise⟩
      obtain ⟨e, he⟩ := foldlM_raises (f := setWeekday)
        (fun _ _ hslots hitem => setWeekday_ok hslots hitem)
        (fun _ _ hslots hitem => setWeekday_error hslots hitem) slots_initial ⟨item, hitem, hraise⟩
      dsimp only
      change ∃ e, (if timesOf v ≠ [] ∨ child.data ≠ [] then _ else _) = Except.error e
      rw [hcmd, if_pos (not_and_or.mp hempty)]
      change ∃ e, (List.foldlM setWeekday _ (splitCompress (ch ',') (timesOf v))).map _
        = Except.error e
      rw [he]
      exact ⟨e, rfl⟩

end

/-! ### All scripts -/

section
variable {cs : List (Bytes × PTree)}

/-- An accepted child does not raise, whatever the map holds. -/
theorem addScript_accepts (scripts : Table Bytes (List Bytes)) (v : Bytes × PTree) (_ : True)
    (h : Accepts v) : ∃ scripts', addScript scripts v = .ok scripts' ∧ True :=
  ⟨_, addScript_ok h, trivial⟩

/-- The loop over the children, if all of them are accepted. -/
theorem foldlM_addScript (h : ∀ v ∈ cs, Accepts v) :
    cs.foldlM addScript ∅ = .ok (installed cs) := by
  have hfold : cs.foldlM addScript ∅ = .ok (cs.foldl (passOr addScript) ∅) :=
    (foldlM_of_accepts addScript_accepts trivial h).1
  rw [hfold]
  unfold installed
  rw [List.foldl_filterMap]
  congr 1
  refine List.foldl_ext _ _ _ fun scripts v hv => ?_
  unfold passOr
  rw [addScript_ok (h v hv)]
  cases scriptEntry v <;> rfl

/-- The first script with a command is the one that counts. -/
theorem lookup_installed {pre post : List (Bytes × PTree)} {v : Bytes × PTree}
    (hpre : ∀ u ∈ pre, IsScript u → commandOf u = commandOf v → timesOf u = timesOf v)
    (hv : IsScript v) (hempty : ¬ (timesOf v = [] ∧ commandOf v = [])) :
    (installed (pre ++ v :: post)).lookup (commandOf v) = some (weekdaysOf (timesOf v)) := by
  have hentry : scriptEntry v = some (commandOf v, weekdaysOf (timesOf v)) :=
    if_pos ⟨hv, hempty⟩
  unfold installed
  rw [Table.lookup_foldl_insertNew, AList.lookup_empty, Option.none_or, List.filterMap_append,
    List.find?_append, List.filterMap_cons, hentry]
  cases hfind : (pre.filterMap scriptEntry).find? (fun e => e.1 = commandOf v) with
  | none => simp
  | some e =>
      obtain ⟨u, hu, hentry⟩ := List.mem_filterMap.mp (List.mem_of_find?_eq_some hfind)
      obtain ⟨⟨hscript, -⟩, hentry⟩ := Option.ite_none_right_eq_some.mp hentry
      have hcmd : e.1 = commandOf v := by simpa using List.find?_some hfind
      cases hentry
      change some (weekdaysOf (timesOf u)) = _
      rw [hpre u hu hscript hcmd]

/-- All entries that `main` installs have their seven slots. -/
theorem slots_installed (h : ∀ v ∈ cs, Accepts v) {cmd : Bytes} {weekdays : List Bytes}
    (hlookup : (installed cs).lookup cmd = some weekdays) : Slots weekdays := by
  unfold installed at hlookup
  rw [Table.lookup_foldl_insertNew, AList.lookup_empty, Option.none_or] at hlookup
  obtain ⟨e, he, rfl⟩ := Option.map_eq_some_iff.mp hlookup
  obtain ⟨v, hv, hentry⟩ := List.mem_filterMap.mp (List.mem_of_find?_eq_some he)
  obtain ⟨⟨hscript, hempty⟩, hentry⟩ := Option.ite_none_right_eq_some.mp hentry
  cases hentry
  exact (foldlM_setWeekday ((h v hv hscript).2.resolve_left hempty)).2

/-- The file is parsed, `main` gets as far as "Scripts setup", and these are the children of
"scripts". -/
def Scripted (readXml : Bytes → Option PTree) (file : Option Bytes)
    (cs : List (Bytes × PTree)) : Prop :=
  ∃ pt, file.bind readXml = some pt ∧ ReachesSettings pt ∧
    ∃ list, pt.getChildOptional (str "scripts") = some list ∧ list.children = cs

/-- The configuration is accepted: nothing is caught. -/
def ConfigAccepted (readXml : Bytes → Option PTree) (file : Option Bytes) : Prop :=
  ∃ s, readConfig readXml file Settings.initial = .ok () s

variable {readXml : Bytes → Option PTree} {file : Option Bytes}

/-- "Scripts setup", for the children of "scripts". -/
theorem readScripts_eq {pt list : PTree} (h : pt.getChildOptional (str "scripts") = some list) :
    readScripts pt = match list.children.foldlM addScript ∅ with
      | .ok scripts => modify fun s => { s with scripts2 := scripts }
      | .error e => throw e := by
  unfold readScripts getChild
  rw [h]
  rfl

/-- "Scripts setup" returns exactly if every child is accepted, and then it assigns SCRIPTS2. -/
theorem readScripts_spec {pt list : PTree} (h : pt.getChildOptional (str "scripts") = some list) :
    ReturnsIff (readScripts pt) (∀ v ∈ list.children, Accepts v) ∧
      SetsIf Settings.scripts2 (readScripts pt) (∀ v ∈ list.children, Accepts v)
        (installed list.children) := by
  rw [readScripts_eq h]
  by_cases hall : ∀ v ∈ list.children, Accepts v
  · rw [foldlM_addScript hall]
    refine ⟨fun s => iff_of_true ⟨_, _, rfl⟩ hall, fun s => ?_⟩
    rw [if_pos hall]
    rfl
  · obtain ⟨v, hv, hnot⟩ : ∃ v ∈ list.children, ¬ Accepts v := by
      simpa only [not_forall, exists_prop] using hall
    obtain ⟨e, he⟩ : ∃ e, list.children.foldlM addScript ∅ = .error e :=
      foldlM_raises addScript_accepts (fun _ _ _ hv => addScript_error hv) trivial ⟨v, hv, hnot⟩
    rw [he]
    refine ⟨fun s => iff_of_false (fun ⟨_, _, hok⟩ => by cases hok) hall, fun s => ?_⟩
    rw [if_neg hall]
    rfl

/-- SCRIPTS2 has the entries of all children, or none. -/
theorem configure_scripts2 (h : Scripted readXml file cs) :
    (configure readXml file).scripts2 = (if ∀ v ∈ cs, Accepts v then installed cs else ∅) ∧
      (ConfigAccepted readXml file ↔ ∀ v ∈ cs, Accepts v) := by
  obtain ⟨pt, hpt, hreach, list, hlist, rfl⟩ := h
  obtain ⟨hreturns, hsets⟩ := readScripts_spec hlist
  have hreach' : (pt.Has (str "path.data") ∧ pt.Has (str "path.log") ∧ pt.Has (str "path.config"))
      ∧ pt.Has (str "network.server") ∧ True ∧ True ∧ (∀ v ∈ list.children, Accepts v) ↔
        ∀ v ∈ list.children, Accepts v := by
    simp only [ReachesSettings, requiredPaths, List.forall_mem_cons] at hreach
    exact ⟨fun hh => hh.2.2.2.2, fun hall =>
      ⟨⟨hreach.1, hreach.2.1, hreach.2.2.1⟩, hreach.2.2.2.1, trivial, trivial, hall⟩⟩
  unfold ConfigAccepted configure readConfig
  rw [hpt]
  constructor
  · have hset := (SetsIf.bind ((keeps_readPaths pt).comp Prod.snd) (returnsIff_readPaths pt)
      fun _ => SetsIf.bind ((keeps_readNetwork pt).comp Prod.snd) (returnsIff_readNetwork pt)
        fun _ => SetsIf.bind ((keeps_readMessages pt).comp Prod.snd) (returnsIff_readMessages pt)
          fun _ => SetsIf.bind (keeps_readSettings pt) (returnsIff_readSettings pt)
            fun _ => hsets) Settings.initial
    exact hset.trans (if_congr hreach' rfl rfl)
  · have hreturn := ((returnsIff_readPaths pt).bind fun _ => (returnsIff_readNetwork pt).bind
      fun _ => (returnsIff_readMessages pt).bind fun _ => (returnsIff_readSettings pt).bind
        fun _ => hreturns) Settings.initial
    rw [← hreach', ← hreturn]
    constructor
    · rintro ⟨s, hs⟩
      exact ⟨(), s, hs⟩
    · rintro ⟨_, s, hs⟩
      exact ⟨s, hs⟩

end

end Monitoring.Client
