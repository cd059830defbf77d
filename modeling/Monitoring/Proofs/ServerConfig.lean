import Monitoring.Lib.Raise
import Monitoring.Server.Config

/-!
# `Monitoring.Proofs.ServerConfig`: what is read of the configuration of the server

A line with fewer than three fields raises. Of the lines of a key, the last one counts
(`readOptions_spec`). The globals of the keys in front of the first one without a value are
assigned, also where the function returns -1 (`setOptions_eq`). `allOrNothing_iff` says for which
files none of this shows.

In a file of lines `KEY = VALUE` that are made of words, only the last of the three can show
(`readWell_configText_iff`). Such a file is read as it says (`returns_configText`).
-/

set_option autoImplicit false

namespace Monitoring.Server

open Monitoring.Lib

/-! ### The lines -/

/-- A comment, or an empty line. -/
def Skipped (line : Bytes) : Prop := line.head? = some (ch '#') ∨ line = []

instance (line : Bytes) : Decidable (Skipped line) := inferInstanceAs (Decidable (_ ∨ _))

/-- A line that does not raise. -/
def Shaped (line : Bytes) : Prop := Skipped line ∨ 3 ≤ (line.splitOn (ch ' ')).length

instance (line : Bytes) : Decidable (Shaped line) := inferInstanceAs (Decidable (_ ∨ _))

/-- The value that the line has for a key: its third field, if the key is the first one. -/
def lineValue (key line : Bytes) : Option Bytes :=
  if Skipped line ∨ (line.splitOn (ch ' '))[0]? ≠ some key then none
  else (line.splitOn (ch ' '))[2]?

/-- The value that the file has for a key: that of the last line of the key; empty if there is
none. -/
def valueIn (text key : Bytes) : Bytes :=
  ((text.splitOn (ch '\n')).reverse.findSome? (lineValue key)).getD []

section
variable {options : Table Bytes Bytes} {line text : Bytes} {lines : List Bytes} {fuel : Nat}

/-- A line that is not passed over. -/
theorem readOption_fields (h : ¬ Skipped line) (options : Table Bytes Bytes) :
    readOption options line = match (line.splitOn (ch ' '))[0]?, (line.splitOn (ch ' '))[2]? with
      | some key, some value => .ok (options.set key value)
      | _, _ => .error .outOfRange := if_neg h

theorem readOption_error (h : ¬ Shaped line) (options : Table Bytes Bytes) :
    readOption options line = .error .outOfRange := by
  obtain ⟨hskip, hlen⟩ := not_or.mp h
  have hmissing : (line.splitOn (ch ' '))[2]? = none :=
    List.getElem?_eq_none (Nat.le_of_lt_succ (Nat.lt_of_not_le hlen))
  rw [readOption_fields hskip, hmissing]
  cases (line.splitOn (ch ' '))[0]? <;> rfl

/-- A line that does not raise changes the entry of its key. -/
theorem readOption_ok (h : Shaped line) (options : Table Bytes Bytes) :
    ∃ options', readOption options line = .ok options' ∧
      ∀ key, options'.lookup key = (lineValue key line).or (options.lookup key) := by
  by_cases hskip : Skipped line
  · refine ⟨options, if_pos hskip, fun key => ?_⟩
    rw [lineValue, if_pos (Or.inl hskip), Option.none_or]
  · have hlen := h.resolve_left hskip
    have hvalue : (line.splitOn (ch ' '))[2]? = some (line.splitOn (ch ' '))[2] :=
      List.getElem?_eq_getElem hlen
    have hkey : (line.splitOn (ch ' '))[0]? = some (line.splitOn (ch ' '))[0] :=
      List.getElem?_eq_getElem (by omega)
    rw [readOption_fields hskip, hvalue, hkey]
    refine ⟨_, rfl, fun key => ?_⟩
    rw [Table.lookup_set, lineValue, hvalue, hkey]
    by_cases heq : key = (line.splitOn (ch ' '))[0]
    · rw [if_pos heq, if_neg (by simp [hskip, heq]), Option.some_or]
    · rw [if_neg heq, if_pos (Or.inr (by simpa using Ne.symm heq)), Option.none_or]

/-- Of the lines of a key, the last one counts. -/
theorem foldlM_readOption (h : ∀ line ∈ lines, Shaped line) (options : Table Bytes Bytes) :
    ∃ options', lines.foldlM readOption options = .ok options' ∧
      ∀ key, options'.lookup key
        = (lines.reverse.findSome? (lineValue key)).or (options.lookup key) := by
  induction lines generalizing options with
  | nil => exact ⟨options, rfl, fun _ => rfl⟩
  | cons line lines ih =>
      obtain ⟨hline, hlines⟩ := List.forall_mem_cons.mp h
      obtain ⟨first, hfirst, hlookup⟩ := readOption_ok hline options
      obtain ⟨rest, hrest, hlookups⟩ := ih hlines first
      refine ⟨rest, ?_, fun key => ?_⟩
      · rw [List.foldlM_cons, hfirst]
        exact hrest
      · rw [hlookups, hlookup, List.reverse_cons, List.findSome?_append, Option.or_assoc,
          List.findSome?_cons]
        cases lineValue key line <;> rfl

/-- The map that a file without short lines leaves. -/
theorem readOptions_spec (h : ∀ line ∈ text.splitOn (ch '\n'), Shaped line)
    (hfuel : text.length + 2 ≤ fuel) : ∃ options, readOptions text fuel = some (.ok options) ∧
      ∀ key, options.read key [] = valueIn text key := by
  obtain ⟨options, hoptions, hlookup⟩ :=
    foldlM_readOption (fun line hline => h line (mem_passLines.mp hline)) ∅
  refine ⟨options, (lineLoop_eq hfuel).trans (congrArg some hoptions), fun key => ?_⟩
  unfold Table.read valueIn
  rw [hlookup, findSome?_passLines, AList.lookup_empty, Option.or_none]

theorem readOption_accepts (options : Table Bytes Bytes) (line : Bytes) (_ : True)
    (h : Shaped line) : ∃ options', readOption options line = .ok options' ∧ True :=
  (readOption_ok h options).imp fun _ hok => ⟨hok.1, trivial⟩

/-- A short line raises. -/
theorem readOptions_raises (h : ¬ ∀ line ∈ text.splitOn (ch '\n'), Shaped line)
    (hfuel : text.length + 2 ≤ fuel) : ∃ e, readOptions text fuel = some (.error e) := by
  have hshort : ∃ line ∈ passLines text, ¬ Shaped line := by
    simpa [mem_passLines] using h
  obtain ⟨e, he⟩ := foldlM_raises readOption_accepts
    (fun options _ _ hline => ⟨_, readOption_error hline options⟩) trivial hshort
  exact ⟨e, (lineLoop_eq hfuel).trans (congrArg some he)⟩

end

/-! ### The keys -/

/-- The value of a global. -/
inductive SettingValue
  | number (n : Int)
  | pointer (p : CharPtr)
deriving DecidableEq, Repr

namespace ConfigKey

/-- The global of the key. -/
def setting (s : Settings) : ConfigKey → SettingValue
  | .listenPort => .number s.listenPort
  | .sendPort => .number s.sendPort
  | .db => .pointer s.db
  | .dbServer => .pointer s.dbServer
  | .dbUser => .pointer s.dbUsr
  | .dbPswd => .pointer s.dbPswd
  | .mstatusTimer => .number s.mstatusTimer
  | .errlog => .pointer s.errlog

/-- What it is set to for a value in the file. -/
def newSetting (buffer : Bytes → Nat) (value : Bytes) (key : ConfigKey) : SettingValue :=
  match key with
  | .listenPort | .sendPort | .mstatusTimer => .number (atoi value)
  | .db | .dbServer | .dbUser | .dbPswd | .errlog => .pointer ⟨buffer key.name, value⟩

end ConfigKey

/-- The assignments for some of the keys. -/
def assignAll (buffer : Bytes → Nat) (value : ConfigKey → Bytes) (keys : List ConfigKey)
    (s : Settings) : Settings :=
  keys.foldl (fun s key => key.assign buffer (value key) s) s

section
variable {buffer : Bytes → Nat} {value : ConfigKey → Bytes} {keys : List ConfigKey}
  {s t : Settings} {key : ConfigKey}

/-- An assignment changes the global of its key only. -/
theorem setting_assign (key' : ConfigKey) (text : Bytes) :
    key'.setting (key.assign buffer text s)
      = if key' = key then key.newSetting buffer text else key'.setting s := by
  cases key <;> cases key' <;> rfl

/-- There are no other globals. -/
theorem settings_ext (h : ∀ key, ConfigKey.setting s key = ConfigKey.setting t key) : s = t := by
  have hnumber {a b : Int} (hab : SettingValue.number a = .number b) : a = b :=
    SettingValue.number.inj hab
  have hpointer {p q : CharPtr} (hpq : SettingValue.pointer p = .pointer q) : p = q :=
    SettingValue.pointer.inj hpq
  cases s
  cases t
  rw [Settings.mk.injEq]
  exact ⟨hnumber (h .listenPort), hnumber (h .sendPort), hpointer (h .db), hpointer (h .dbServer),
    hpointer (h .dbUser), hpointer (h .dbPswd), hnumber (h .mstatusTimer), hpointer (h .errlog)⟩

theorem setting_assignAll (buffer : Bytes → Nat) (value : ConfigKey → Bytes)
    (keys : List ConfigKey) (s : Settings) (key : ConfigKey) :
    key.setting (assignAll buffer value keys s)
      = if key ∈ keys then key.newSetting buffer (value key) else key.setting s := by
  unfold assignAll
  induction keys generalizing s with
  | nil => exact (if_neg List.not_mem_nil).symm
  | cons first keys ih =>
      rw [List.foldl_cons, ih, setting_assign]
      by_cases hkey : key = first
      · subst hkey
        rw [if_pos rfl, ite_self, if_pos List.mem_cons_self]
      · rw [if_neg hkey]
        simp [hkey]

/-- The assignments change nothing exactly if every global has its value already. -/
theorem assignAll_eq_self_iff :
    assignAll buffer value keys s = s ↔
      ∀ key ∈ keys, key.setting s = key.newSetting buffer (value key) := by
  constructor
  · intro h key hkey
    have hset := setting_assignAll buffer value keys s key
    rwa [h, if_pos hkey] at hset
  · intro h
    refine settings_ext fun key => ?_
    rw [setting_assignAll]
    by_cases hkey : key ∈ keys
    · rw [if_pos hkey, h key hkey]
    · rw [if_neg hkey]

/-- The tests and assignments: the keys in front of the first one without a value are assigned, and
that one is logged. -/
theorem setOptions_eq {options : Table Bytes Bytes}
    (hvalue : ∀ key, options.read (ConfigKey.name key) [] = value key) (buffer : Bytes → Nat)
    (keys : List ConfigKey) (s : Settings) :
    setOptions buffer options keys s =
      let t := assignAll buffer value (keys.takeWhile fun key => value key ≠ []) s
      match keys.find? fun key => value key = [] with
      | none => ⟨0, t, none⟩
      | some key => ⟨-1, t, some (t.errlog, key.message)⟩ := by
  induction keys generalizing s with
  | nil => rfl
  | cons key keys ih =>
      unfold setOptions
      rw [hvalue key]
      by_cases hempty : value key = []
      · rw [List.takeWhile_cons_of_neg (by simpa using hempty),
          List.find?_cons_of_pos (by simpa using hempty)]
        exact if_pos hempty
      · rw [List.takeWhile_cons_of_pos (by simpa using hempty),
          List.find?_cons_of_neg (by simpa using hempty)]
        exact (if_neg hempty).trans (ih _)

end

/-! ### All or nothing -/

/-- The keys in front of the first one without a value. -/
def keysSet (text : Bytes) : List ConfigKey :=
  ConfigKey.all.takeWhile fun key => valueIn text key.name ≠ []

/-- What a call returns for a file without short lines. -/
def configResult (buffer : Bytes → Nat) (text : Bytes) (s : Settings) : ConfigResult :=
  let t := assignAll buffer (fun key => valueIn text key.name) (keysSet text) s
  match ConfigKey.all.find? fun key => valueIn text key.name = [] with
  | none => ⟨0, t, none⟩
  | some key => ⟨-1, t, some (t.errlog, key.message)⟩

/-- Every required key has a line `KEY = VALUE`, and the value is not empty. -/
def AllGiven (text : Bytes) : Prop :=
  ∀ key ∈ ConfigKey.all, ∃ line ∈ text.splitOn (ch '\n'), ∃ value, value ≠ [] ∧
    line = key.name ++ str " = " ++ value

/-- Such a line starts with the key and the `=`, and goes on. -/
theorem allGiven_iff {text : Bytes} :
    AllGiven text ↔ ∀ key ∈ ConfigKey.all, ∃ line ∈ text.splitOn (ch '\n'),
      key.name ++ str " = " <+: line ∧ line ≠ key.name ++ str " = " := by
  refine forall₂_congr fun key _ => exists_congr fun line => and_congr_right fun _ => ?_
  constructor
  · rintro ⟨value, hne, rfl⟩
    exact ⟨List.prefix_append _ _, by simpa using hne⟩
  · rintro ⟨⟨value, rfl⟩, hne⟩
    refine ⟨value, ?_, rfl⟩
    rintro rfl
    exact hne (List.append_nil _)

instance (text : Bytes) : Decidable (AllGiven text) := decidable_of_iff _ allGiven_iff.symm

/-- The call comes to its end without an exception. -/
def Returns (buffer : Bytes → Nat) (text : Bytes) (s : Settings) (r : ConfigResult) : Prop :=
  ∃ n, ∀ fuel, n ≤ fuel → setConfigOptions buffer (some text) fuel s = some (.ok r)

/-- The call comes to its end without an exception, and returns 0 exactly if every required key is
given; and if it returns -1, no global has changed. -/
def AllOrNothing (buffer : Bytes → Nat) (text : Bytes) (s : Settings) : Prop :=
  ∃ r, Returns buffer text s r ∧ (r.code = 0 ↔ AllGiven text) ∧ (r.code = -1 → r.settings = s)

/-- A file that is read all or nothing: no line is short; the last line of every required key has a
value exactly if every required key is given; and if some key has no value, those in front of it
have the values that are in force. -/
structure ReadWell (buffer : Bytes → Nat) (text : Bytes) (s : Settings) : Prop where
  shaped : ∀ line ∈ text.splitOn (ch '\n'), Shaped line
  given_iff : (∀ key ∈ ConfigKey.all, valueIn text key.name ≠ []) ↔ AllGiven text
  inForce : (∃ key ∈ ConfigKey.all, valueIn text key.name = []) → ∀ key ∈ keysSet text,
    key.setting s = key.newSetting buffer (valueIn text key.name)

section
variable {buffer : Bytes → Nat} {text : Bytes} {s : Settings} {fuel : Nat}

theorem setConfigOptions_shaped (h : ∀ line ∈ text.splitOn (ch '\n'), Shaped line)
    (hfuel : text.length + 2 ≤ fuel) :
    setConfigOptions buffer (some text) fuel s = some (.ok (configResult buffer text s)) := by
  obtain ⟨options, hoptions, hvalue⟩ := readOptions_spec h hfuel
  have hset := setOptions_eq (fun key => hvalue key.name) buffer ConfigKey.all s
  unfold setConfigOptions
  dsimp only
  rw [hoptions]
  exact congrArg (fun r => some (Except.ok r)) hset

theorem setConfigOptions_raises (h : ¬ ∀ line ∈ text.splitOn (ch '\n'), Shaped line)
    (buffer : Bytes → Nat) (s : Settings) (hfuel : text.length + 2 ≤ fuel) :
    ∃ e, setConfigOptions buffer (some text) fuel s = some (.error e) := by
  obtain ⟨e, he⟩ := readOptions_raises h hfuel
  refine ⟨e, ?_⟩
  unfold setConfigOptions
  dsimp only
  rw [he]
  rfl

/-- The two ways to return. -/
theorem configResult_cases (buffer : Bytes → Nat) (text : Bytes) (s : Settings) :
    (configResult buffer text s).settings
        = assignAll buffer (fun key => valueIn text key.name) (keysSet text) s ∧
      (((∀ key ∈ ConfigKey.all, valueIn text key.name ≠ []) ∧
          (configResult buffer text s).code = 0) ∨
        ((∃ key ∈ ConfigKey.all, valueIn text key.name = []) ∧
          (configResult buffer text s).code = -1)) := by
  unfold configResult
  cases hfind : ConfigKey.all.find? fun key => valueIn text key.name = [] with
  | none =>
      refine ⟨rfl, Or.inl ⟨fun key hkey => ?_, rfl⟩⟩
      simpa using List.find?_eq_none.mp hfind key hkey
  | some key =>
      refine ⟨rfl, Or.inr ⟨⟨key, List.mem_of_find?_eq_some hfind, ?_⟩, rfl⟩⟩
      simpa using List.find?_some hfind

/-- An element is in the front of a list that satisfies `p` if it and all elements in front of it
do. -/
theorem mem_takeWhile_iff {α : Type} {p : α → Bool} {front back : List α} {x : α} (h : x ∉ front) :
    x ∈ (front ++ x :: back).takeWhile p ↔ ∀ y ∈ front ++ [x], p y = true := by
  induction front with
  | nil =>
      rw [List.nil_append, List.nil_append, List.takeWhile_cons]
      cases hx : p x <;> simp [hx]
  | cons a front ih =>
      obtain ⟨hne, hfront⟩ := List.ne_and_not_mem_of_not_mem_cons h
      rw [List.cons_append, List.cons_append, List.takeWhile_cons, List.forall_mem_cons,
        ← ih hfront]
      cases ha : p a <;> simp [hne]

/-- A key is set where it and all keys in front of it have values. -/
theorem mem_keysSet_iff (front : List ConfigKey) (key : ConfigKey) (back : List ConfigKey)
    (hall : ConfigKey.all = front ++ key :: back) :
    key ∈ keysSet text ↔ ∀ k ∈ front ++ [key], valueIn text k.name ≠ [] := by
  have hnodup : (front ++ key :: back).Nodup := hall ▸ (by decide : ConfigKey.all.Nodup)
  have hfront : key ∉ front := fun h =>
    (List.nodup_append.mp hnodup).2.2 _ h _ List.mem_cons_self rfl
  unfold keysSet
  rw [hall, mem_takeWhile_iff hfront]
  simp only [decide_eq_true_eq]

/-- `ERRLOG` comes last, so it is not assigned where another key has no value. -/
theorem errlog_not_mem_keysSet (h : ∃ key ∈ ConfigKey.all, valueIn text key.name = []) :
    ConfigKey.errlog ∉ keysSet text := by
  obtain ⟨key, hkey, hempty⟩ := h
  intro hmem
  exact (mem_keysSet_iff (ConfigKey.all.take 7) .errlog [] rfl).mp hmem key hkey hempty

/-- Where a key has no value, the first such key is logged, in the file that ERRLOG has named
before. -/
theorem configResult_logged (buffer : Bytes → Nat) (s : Settings)
    (h : ∃ key ∈ ConfigKey.all, valueIn text key.name = []) :
    ∃ key, (ConfigKey.all.find? fun key => valueIn text key.name = []) = some key ∧
      (configResult buffer text s).logged = some (s.errlog, key.message) := by
  have hsome : (ConfigKey.all.find? fun key => valueIn text key.name = []).isSome := by
    rw [List.find?_isSome]
    simpa using h
  obtain ⟨key, hkey⟩ := Option.isSome_iff_exists.mp hsome
  have hfile := setting_assignAll buffer (fun key => valueIn text key.name) (keysSet text) s .errlog
  rw [if_neg (errlog_not_mem_keysSet h)] at hfile
  refine ⟨key, hkey, ?_⟩
  unfold configResult
  rw [hkey]
  exact congrArg (fun p => some (p, key.message)) (SettingValue.pointer.inj hfile)

/-- A short line ends the call with an exception. -/
theorem not_allOrNothing_of_short (h : ¬ ∀ line ∈ text.splitOn (ch '\n'), Shaped line) :
    ¬ AllOrNothing buffer text s := by
  rintro ⟨r, ⟨n, hn⟩, -⟩
  obtain ⟨e, he⟩ := setConfigOptions_raises h buffer s (Nat.le_max_right n (text.length + 2))
  rw [hn _ (Nat.le_max_left _ _)] at he
  cases he

/-- Without short lines, the call comes to its end. -/
theorem allOrNothing_shaped_iff (h : ∀ line ∈ text.splitOn (ch '\n'), Shaped line) :
    AllOrNothing buffer text s ↔
      ((configResult buffer text s).code = 0 ↔ AllGiven text) ∧
        ((configResult buffer text s).code = -1 → (configResult buffer text s).settings = s) := by
  constructor
  · rintro ⟨r, ⟨n, hn⟩, hr⟩
    have hcall := hn (max n (text.length + 2)) (Nat.le_max_left _ _)
    rw [setConfigOptions_shaped h (Nat.le_max_right _ _)] at hcall
    cases hcall
    exact hr
  · intro hr
    exact ⟨_, ⟨text.length + 2, fun fuel => setConfigOptions_shaped h⟩, hr⟩

/-- For every text of the file, whatever the globals are: the file is read all or nothing exactly if
it is read well. -/
theorem allOrNothing_iff (buffer : Bytes → Nat) (text : Bytes) (s : Settings) :
    AllOrNothing buffer text s ↔ ReadWell buffer text s := by
  by_cases hshaped : ∀ line ∈ text.splitOn (ch '\n'), Shaped line
  · obtain ⟨hsettings, ⟨hall, hcode⟩ | ⟨hmissing, hcode⟩⟩ := configResult_cases buffer text s
    · rw [allOrNothing_shaped_iff hshaped, hcode]
      constructor
      · rintro ⟨hgiven, -⟩
        exact ⟨hshaped, iff_of_true hall (hgiven.mp rfl),
          fun ⟨key, hkey, hempty⟩ => absurd hempty (hall key hkey)⟩
      · intro h
        exact ⟨iff_of_true rfl (h.given_iff.mp hall), fun hminus => absurd hminus (by decide)⟩
    · have hnot : ¬ ∀ key ∈ ConfigKey.all, valueIn text key.name ≠ [] := by
        intro h
        obtain ⟨key, hkey, hempty⟩ := hmissing
        exact h key hkey hempty
      have hzero : (-1 : Int) ≠ 0 := by decide
      rw [allOrNothing_shaped_iff hshaped, hcode, hsettings, assignAll_eq_self_iff]
      constructor
      · rintro ⟨hgiven, hkept⟩
        have hgiven' : ¬ AllGiven text := fun h => hzero (hgiven.mpr h)
        exact ⟨hshaped, iff_of_false hnot hgiven', fun _ => hkept rfl⟩
      · intro h
        have hgiven : ¬ AllGiven text := fun hall => hnot (h.given_iff.mpr hall)
        exact ⟨iff_of_false hzero hgiven, fun _ => h.inForce hmissing⟩
  · exact iff_of_false (not_allOrNothing_of_short hshaped) fun h => hshaped h.shaped

end

/-- Every required key has a line, but that of `DB` has another word in place of the `=`. -/
def otherWord : Bytes :=
  ConfigKey.all.flatMap fun key =>
    key.name ++ str (if key = .db then " is 1\n" else " = 1\n")

/-- A line without blanks raises. A file with nothing but the port returns -1, and has set the port.
And a file in which one key is not given returns 0. -/
theorem allOrNothing_fails :
    let s := Settings.initial fun _ => 0
    ¬ AllOrNothing (fun _ => 1) (str "LISTEN_PORT=1\n") s ∧
      ¬ AllOrNothing (fun _ => 1) (str "LISTEN_PORT = 1\n") s ∧
      ¬ AllOrNothing (fun _ => 1) otherWord s := by
  refine ⟨not_allOrNothing_of_short (by decide +kernel), fun h => ?_, fun h => ?_⟩
  · obtain ⟨-, hkept⟩ := (allOrNothing_shaped_iff (by decide +kernel)).mp h
    exact absurd (hkept (by decide +kernel)) (by decide +kernel)
  · obtain ⟨hgiven, -⟩ := (allOrNothing_shaped_iff (by decide +kernel)).mp h
    exact absurd (hgiven.mp (by decide +kernel)) (by decide +kernel)

/-- In a server that has just started, a missing key leaves all globals as they are exactly if it is
in front of `DB`, or is `DB`, and the ports in front of it are the default ones. -/
theorem inForce_initial_iff {buffer literal : Bytes → Nat} (text : Bytes)
    (hfresh : ∀ key constant, buffer key ≠ literal constant) :
    (∀ key ∈ keysSet text, key.setting (Settings.initial literal)
        = key.newSetting buffer (valueIn text key.name)) ↔
      ConfigKey.db ∉ keysSet text ∧
        (ConfigKey.listenPort ∈ keysSet text → atoi (valueIn text (str "LISTEN_PORT")) = 16100) ∧
        (ConfigKey.sendPort ∈ keysSet text → atoi (valueIn text (str "SEND_PORT")) = 16200) := by
  constructor
  · intro h
    refine ⟨fun hmem => ?_, fun hmem => ?_, fun hmem => ?_⟩
    · have hptr := SettingValue.pointer.inj (h _ hmem)
      exact hfresh _ _ (congrArg CharPtr.address hptr).symm
    · exact (SettingValue.number.inj (h _ hmem)).symm
    · exact (SettingValue.number.inj (h _ hmem)).symm
  · rintro ⟨hdb, hlisten, hsend⟩ key hkey
    -- `DB` is set in front of every key behind it
    have hports : key = .listenPort ∨ key = .sendPort := by
      by_contra hlater
      obtain ⟨front, back, hall, hmem⟩ : ∃ front back, ConfigKey.all = front ++ key :: back ∧
          ∀ k ∈ [ConfigKey.listenPort, .sendPort, .db], k ∈ front ++ [key] := by
        cases key with
        | listenPort | sendPort => simp at hlater
        | db => exact absurd hkey hdb
        | dbServer => exact ⟨ConfigKey.all.take 3, ConfigKey.all.drop 4, rfl, by decide⟩
        | dbUser => exact ⟨ConfigKey.all.take 4, ConfigKey.all.drop 5, rfl, by decide⟩
        | dbPswd => exact ⟨ConfigKey.all.take 5, ConfigKey.all.drop 6, rfl, by decide⟩
        | mstatusTimer => exact ⟨ConfigKey.all.take 6, ConfigKey.all.drop 7, rfl, by decide⟩
        | errlog => exact ⟨ConfigKey.all.take 7, [], rfl, by decide⟩
      have hvalues := (mem_keysSet_iff front key back hall).mp hkey
      exact hdb ((mem_keysSet_iff [.listenPort, .sendPort] .db (ConfigKey.all.drop 3) rfl).mpr
        fun k hk => hvalues k (hmem k hk))
    rcases hports with rfl | rfl
    · exact congrArg SettingValue.number (hlisten hkey).symm
    · exact congrArg SettingValue.number (hsend hkey).symm

/-! ### Lines of words -/

/-- A line `KEY = VALUE`, where the key and the value are words. -/
structure ConfigEntry where
  key : Bytes
  value : Bytes
  key_word : ch ' ' ∉ key ∧ ch '\n' ∉ key
  key_start : key.head? ≠ some (ch '#')
  value_word : ch ' ' ∉ value ∧ ch '\n' ∉ value
  value_ne : value ≠ []

/-- The line without its newline. -/
def ConfigEntry.line (e : ConfigEntry) : Bytes := e.key ++ str " = " ++ e.value

/-- The text of a file. -/
def configText (entries : List ConfigEntry) : Bytes :=
  entries.flatMap fun e => e.line ++ [ch '\n']

/-- The value of the last entry for a key; empty if there is none. -/
def entryValue (entries : List ConfigEntry) (key : Bytes) : Bytes :=
  ((entries.reverse.find? fun e => e.key = key).map ConfigEntry.value).getD []

section
variable {entries : List ConfigEntry} {e : ConfigEntry} {key : Bytes}

theorem ConfigEntry.fields_line (e : ConfigEntry) :
    e.line.splitOn (ch ' ') = [e.key, str "=", e.value] := by
  have hplain : ∀ field ∈ [e.key, str "=", e.value], ch ' ' ∉ field := by
    simpa using ⟨e.key_word.1, by decide, e.value_word.1⟩
  have hline : e.line = [ch ' '].intercalate [e.key, str "=", e.value] := by
    simp [ConfigEntry.line, List.intercalate, str]
  rw [hline]
  exact List.splitOn_intercalate (ch ' ') hplain (List.cons_ne_nil _ _)

theorem ConfigEntry.shaped (e : ConfigEntry) : Shaped e.line := by
  right
  rw [e.fields_line]
  exact Nat.le_refl 3

theorem ConfigEntry.not_skipped (e : ConfigEntry) : ¬ Skipped e.line := by
  have hline : e.line = e.key ++ ch ' ' :: (str "= " ++ e.value) := by
    simp [ConfigEntry.line, str]
  rw [hline]
  rintro (h | h)
  · cases hkey : e.key with
    | nil =>
        rw [hkey] at h
        exact absurd (Option.some.inj h) (by decide)
    | cons c cs =>
        rw [hkey] at h
        exact e.key_start (hkey ▸ h)
  · exact absurd h (by simp)

theorem lineValue_line (key : Bytes) (e : ConfigEntry) :
    lineValue key e.line = if e.key = key then some e.value else none := by
  unfold lineValue
  rw [e.fields_line]
  by_cases hkey : e.key = key
  · simp [hkey, e.not_skipped]
  · simp [hkey]

/-- The lines of the text, with nothing behind the last newline. -/
theorem splitOn_configText (entries : List ConfigEntry) :
    (configText entries).splitOn (ch '\n') = entries.map ConfigEntry.line ++ [[]] := by
  induction entries with
  | nil => rfl
  | cons e entries ih =>
      have hline : ch '\n' ∉ e.line := by
        simp [ConfigEntry.line, str, e.key_word.2, e.value_word.2]
        decide
      have htext : configText (e :: entries) = e.line ++ ch '\n' :: configText entries := by
        simp [configText]
      rw [htext, List.splitOn_append_cons_self_of_not_mem hline, ih]
      rfl

theorem mem_configText {line : Bytes} : line ∈ (configText entries).splitOn (ch '\n') ↔
    (∃ e ∈ entries, e.line = line) ∨ line = [] := by
  rw [splitOn_configText, List.mem_append, List.mem_map, List.mem_singleton]

/-- The last entry of a key counts. -/
theorem valueIn_configText (entries : List ConfigEntry) (key : Bytes) :
    valueIn (configText entries) key = entryValue entries key := by
  have hfind (l : List ConfigEntry) : (l.map ConfigEntry.line).findSome? (lineValue key)
      = (l.find? fun e => e.key = key).map ConfigEntry.value := by
    induction l with
    | nil => rfl
    | cons e l ih =>
        rw [List.map_cons, List.findSome?_cons, lineValue_line, ih]
        by_cases hkey : e.key = key
        · rw [if_pos hkey, List.find?_cons_of_pos (by simpa using hkey)]
          rfl
        · rw [if_neg hkey, List.find?_cons_of_neg (by simpa using hkey)]
  unfold valueIn entryValue
  rw [splitOn_configText, List.reverse_append, ← List.map_reverse, List.findSome?_append, hfind]
  exact congrArg (Option.getD · []) (Option.none_or)

theorem entryValue_ne_nil_iff : entryValue entries key ≠ [] ↔ ∃ e ∈ entries, e.key = key := by
  unfold entryValue
  cases hfind : entries.reverse.find? fun e => e.key = key with
  | none =>
      have hnone := List.find?_eq_none.mp hfind
      refine iff_of_false (fun h => h rfl) ?_
      rintro ⟨e, he, hkey⟩
      exact hnone e (List.mem_reverse.mpr he) (by simpa using hkey)
  | some e =>
      exact iff_of_true e.value_ne ⟨e, List.mem_reverse.mp (List.mem_of_find?_eq_some hfind),
        by simpa using List.find?_some hfind⟩

theorem shaped_configText {line : Bytes} (h : line ∈ (configText entries).splitOn (ch '\n')) :
    Shaped line := by
  rcases mem_configText.mp h with ⟨e, -, rfl⟩ | rfl
  · exact e.shaped
  · exact Or.inl (Or.inr rfl)

/-- A line gives the key that it starts with, and no other. -/
theorem ConfigEntry.key_eq {key : ConfigKey} {value : Bytes}
    (h : e.line = key.name ++ str " = " ++ value) : e.key = key.name := by
  have hname : ch ' ' ∉ key.name := by cases key <;> decide
  have hline : e.line = key.name ++ ch ' ' :: (str "= " ++ value) := by
    rw [h]
    simp [str]
  have hfields := e.fields_line
  rw [hline, List.splitOn_append_cons_self_of_not_mem hname] at hfields
  exact (List.cons.inj hfields).1.symm

/-- In a file of such lines, every required key has a value exactly if it is given. -/
theorem allGiven_configText_iff : AllGiven (configText entries) ↔
    ∀ key ∈ ConfigKey.all, valueIn (configText entries) key.name ≠ [] := by
  unfold AllGiven
  refine forall₂_congr fun key _ => ?_
  rw [valueIn_configText, entryValue_ne_nil_iff]
  constructor
  · rintro ⟨line, hline, value, -, rfl⟩
    rcases mem_configText.mp hline with ⟨e, he, heq⟩ | hnil
    · exact ⟨e, he, e.key_eq heq⟩
    · exact absurd hnil (by simp [str])
  · rintro ⟨e, he, hkey⟩
    exact ⟨e.line, mem_configText.mpr (Or.inl ⟨e, he, rfl⟩), e.value, e.value_ne,
      by rw [ConfigEntry.line, hkey]⟩

/-- A file of such lines is read well, but for the globals that are set in front of a missing
key. -/
theorem readWell_configText_iff (buffer : Bytes → Nat) (entries : List ConfigEntry)
    (s : Settings) : ReadWell buffer (configText entries) s ↔
      (∀ key ∈ ConfigKey.all, ∃ e ∈ entries, e.key = key.name) ∨
        ∀ key ∈ keysSet (configText entries),
          key.setting s = key.newSetting buffer (entryValue entries key.name) := by
  simp only [← entryValue_ne_nil_iff, ← valueIn_configText]
  constructor
  · intro h
    by_cases hall : ∀ key ∈ ConfigKey.all, valueIn (configText entries) key.name ≠ []
    · exact Or.inl hall
    · exact Or.inr (h.inForce (by simpa using hall))
  · intro h
    refine ⟨fun _ => shaped_configText, allGiven_configText_iff.symm, ?_⟩
    rintro ⟨key, hkey, hempty⟩
    exact h.resolve_left fun hall => hall key hkey hempty

/-- For every file of such lines: the call returns 0 exactly if every required key has an entry, and
then every global has the value of the last entry of its key. -/
theorem returns_configText (buffer : Bytes → Nat) (entries : List ConfigEntry) (s : Settings) :
    ∃ r, Returns buffer (configText entries) s r ∧
      (r.code = 0 ↔ ∀ key ∈ ConfigKey.all, ∃ e ∈ entries, e.key = key.name) ∧
      (r.code = 0 → ∀ key ∈ ConfigKey.all,
        key.setting r.settings = key.newSetting buffer (entryValue entries key.name)) := by
  refine ⟨configResult buffer (configText entries) s,
    ⟨_, fun fuel => setConfigOptions_shaped fun _ => shaped_configText⟩, ?_⟩
  simp only [← entryValue_ne_nil_iff, ← valueIn_configText]
  obtain ⟨hsettings, ⟨hall, hcode⟩ | ⟨⟨key, hkey, hempty⟩, hcode⟩⟩ :=
    configResult_cases buffer (configText entries) s
  · refine ⟨iff_of_true hcode hall, fun _ key hkey => ?_⟩
    have hmem : key ∈ keysSet (configText entries) := by
      unfold keysSet
      rwa [List.takeWhile_eq_self_iff.mpr fun key hkey => decide_eq_true (hall key hkey)]
    rw [hsettings, setting_assignAll, if_pos hmem]
  · have hzero : (configResult buffer (configText entries) s).code ≠ 0 := by
      rw [hcode]
      decide
    exact ⟨iff_of_false hzero fun h => h key hkey hempty, fun h => absurd h hzero⟩

end

end Monitoring.Server
