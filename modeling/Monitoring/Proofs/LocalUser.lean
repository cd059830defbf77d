import Mathlib.Order.Bounds.Defs
import Monitoring.Proofs.LoggedIn

/-!
# `Monitoring.Proofs.LocalUser`: who is logged in locally

`linux_logged_in` compares each name with the one before it only, so it relies on the order of the
lines. A space is below every character of a name, so the names ascend with the lines
(`WhoLine.line_lt_of_name`). And a colon is below every letter, so the line with `:0` is the first
one of its name, if the lines of a name have the same padding (`WhoLine.line_lt_of_tty`). From
there `localUsers_of_who` follows with the heads of the runs.
-/

set_option autoImplicit false

namespace Monitoring.Client

open Monitoring.Lib

/-! ### The lines of `who` -/

/-- A text between spaces. -/
structure IsField (text : Bytes) : Prop where
  ne_nil : text ≠ []
  space : ch ' ' ∉ text
  newline : ch '\n' ∉ text
  nul : 0 ∉ text

instance (text : Bytes) : Decidable (IsField text) :=
  decidable_of_iff (text ≠ [] ∧ ch ' ' ∉ text ∧ ch '\n' ∉ text ∧ 0 ∉ text)
    ⟨fun h => ⟨h.1, h.2.1, h.2.2.1, h.2.2.2⟩, fun h => ⟨h.1, h.2, h.3, h.4⟩⟩

/-- The five fields of a line, and the spaces behind the first four of them. -/
structure WhoFields where
  name : Bytes
  namePad : Nat
  tty : Bytes
  ttyPad : Nat
  date : Bytes
  datePad : Nat
  time : Bytes
  timePad : Nat
  host : Bytes

/-- A run of spaces. -/
def spaces (n : Nat) : Bytes := List.replicate n (ch ' ')

/-- What follows the padding of the name. -/
def WhoFields.rest (w : WhoFields) : Bytes :=
  w.tty ++ (spaces w.ttyPad ++ (w.date ++ (spaces w.datePad ++ (w.time ++
    (spaces w.timePad ++ w.host)))))

/-- The line, without its newline. -/
def WhoFields.text (w : WhoFields) : Bytes := w.name ++ (spaces w.namePad ++ w.rest)

/-- An ASCII letter. -/
def IsLetter (c : Byte) : Prop := (ch 'A' ≤ c ∧ c ≤ ch 'Z') ∨ (ch 'a' ≤ c ∧ c ≤ ch 'z')

/-- A line of `who`. -/
structure WhoLine extends WhoFields where
  isField : ∀ text ∈ [name, tty, date, time, host], IsField text
  pads : ∀ n ∈ [namePad, ttyPad, datePad, timePad], 0 < n
  aboveSpace : ∀ c ∈ name, ch ' ' < c
  terminal : tty = str ":0" ∨ ∃ c rest, tty = c :: rest ∧ IsLetter c
  short : toWhoFields.text.length < 199

/-- The line with its newline. -/
def WhoLine.line (w : WhoLine) : Bytes := w.text ++ [ch '\n']

/-- What `who` prints. -/
def whoOutput (ws : List WhoLine) : Bytes := ws.flatMap WhoLine.line

/-- The name has a line for `:0`. -/
def HasLocalLine (ws : List WhoLine) (name : Bytes) : Prop :=
  ∃ w ∈ ws, w.name = name ∧ w.tty = str ":0"

/-- The lines of a name have the same padding behind it. -/
def SamePadding (ws : List WhoLine) : Prop :=
  ∀ w ∈ ws, ∀ w' ∈ ws, w.name = w'.name → w.namePad = w'.namePad

/-- Who is in `currentUsers` behind `linux_logged_in`. -/
structure LocalUsers (ws : List WhoLine) (users : List Session) : Prop where
  oncePerName : (users.map fun u => u.name).Nodup
  listed : ∀ u ∈ users, ∃ w ∈ ws, w.name = u.name
  local_iff : ∀ name, (∃ u ∈ users, u.name = name ∧ u.isLocal = true) ↔ HasLocalLine ws name
  least : (∃ name, HasLocalLine ws name) →
    IsLeast {name | HasLocalLine ws name} (getCurrentLocalUser (users.map Session.toUser))
  nobody : (∀ name, ¬ HasLocalLine ws name) →
    getCurrentLocalUser (users.map Session.toUser) = []

/-! ### The order of the lines -/

/-- Texts whose characters are above the space keep their order in front of spaces. -/
theorem append_space_lt {name name' : Bytes} (h : ∀ c ∈ name', ch ' ' < c) (hlt : name < name')
    (rest rest' : Bytes) : name ++ ch ' ' :: rest < name' ++ ch ' ' :: rest' := by
  induction name generalizing name' with
  | nil =>
      cases name' with
      | nil => exact absurd hlt (List.lt_irrefl _)
      | cons d name' => exact List.cons_lt_cons_iff.mpr (Or.inl (h d List.mem_cons_self))
  | cons c name ih =>
      cases name' with
      | nil => exact absurd hlt (List.not_lt_nil _)
      | cons d name' =>
          rw [List.cons_append, List.cons_append, List.cons_lt_cons_iff]
          refine (List.cons_lt_cons_iff.mp hlt).imp id fun heq => ⟨heq.1, ?_⟩
          exact ih (fun e he => h e (List.mem_cons_of_mem d he)) heq.2

/-- A colon is below every letter. -/
theorem colon_lt_of_isLetter {c : Byte} (h : IsLetter c) : ch ':' < c := by
  rcases h with h | h
  · exact UInt8.lt_of_lt_of_le (by decide) h.1
  · exact UInt8.lt_of_lt_of_le (by decide) h.1

theorem spaces_pos {n : Nat} (h : 0 < n) : spaces n = ch ' ' :: spaces (n - 1) := by
  unfold spaces
  rw [← List.replicate_succ, Nat.sub_add_cancel h]

namespace WhoLine

variable {w w' : WhoLine}

/-- The names ascend with the lines. -/
theorem line_lt_of_name (h : w.name < w'.name) : w.line < w'.line := by
  have hpad : 0 < w.namePad := w.pads _ List.mem_cons_self
  have hpad' : 0 < w'.namePad := w'.pads _ List.mem_cons_self
  unfold line WhoFields.text
  rw [spaces_pos hpad, spaces_pos hpad']
  simpa only [List.append_assoc, List.cons_append] using append_space_lt w'.aboveSpace h _ _

/-- The line with `:0` is the first one of its name. -/
theorem line_lt_of_tty (hname : w.name = w'.name) (hpad : w.namePad = w'.namePad)
    (htty : w.tty = str ":0") (htty' : w'.tty ≠ str ":0") : w.line < w'.line := by
  obtain ⟨c, rest, hcons, hletter⟩ := w'.terminal.resolve_left htty'
  unfold line WhoFields.text WhoFields.rest
  rw [hname, hpad, htty, hcons]
  simp only [List.append_assoc]
  refine List.append_left_lt (List.append_left_lt ?_)
  exact List.cons_lt_cons_iff.mpr (Or.inl (colon_lt_of_isLetter hletter))

/-- Lines in their order have their names in the same order. -/
theorem name_of_line_lt (h : w.line < w'.line) : w'.name = w.name ∨ w.name < w'.name := by
  by_contra hne
  obtain ⟨hname, hlt⟩ := not_or.mp hne
  have hle : w'.name ≤ w.name := List.not_lt.mp hlt
  have hlt' : w'.name < w.name := (List.le_iff_lt_or_eq.mp hle).resolve_right hname
  exact List.lt_asymm h (line_lt_of_name hlt')

/-! ### The fields of a line -/

/-- A field in front of spaces is split off. -/
theorem splitCompress_field {field rest : Bytes} {n : Nat} (h : IsField field) (hn : 0 < n)
    (hrest : ∃ d tail, rest = d :: tail ∧ d ≠ ch ' ') :
    splitCompress (ch ' ') (field ++ (spaces n ++ rest))
      = field :: splitCompress (ch ' ') rest := by
  obtain ⟨d, tail, rfl, hd⟩ := hrest
  have hsplit := splitCompress_cons h.space hd (n - 1) tail
  rwa [Nat.sub_add_cancel hn] at hsplit

/-- A text that starts with a field starts with no space. -/
theorem starts_of_isField {field : Bytes} (h : IsField field) (rest : Bytes) :
    ∃ d tail, field ++ rest = d :: tail ∧ d ≠ ch ' ' := by
  obtain ⟨d, tail, rfl⟩ := List.exists_cons_of_ne_nil h.ne_nil
  exact ⟨d, tail ++ rest, rfl, fun hd => h.space (hd ▸ List.mem_cons_self)⟩

/-- The text of a line has the characters of its fields, and spaces. -/
theorem mem_text {c : Byte} (h : c ∈ w.text) :
    c = ch ' ' ∨ ∃ field ∈ [w.name, w.tty, w.date, w.time, w.host], c ∈ field := by
  have hspaces : ∀ {n}, c ∈ spaces n → c = ch ' ' := fun hc => (List.mem_replicate.mp hc).2
  unfold WhoFields.text WhoFields.rest at h
  simp only [List.mem_append] at h
  rcases h with h | h | h | h | h | h | h | h | h
  · exact Or.inr ⟨w.name, by simp, h⟩
  · exact Or.inl (hspaces h)
  · exact Or.inr ⟨w.tty, by simp, h⟩
  · exact Or.inl (hspaces h)
  · exact Or.inr ⟨w.date, by simp, h⟩
  · exact Or.inl (hspaces h)
  · exact Or.inr ⟨w.time, by simp, h⟩
  · exact Or.inl (hspaces h)
  · exact Or.inr ⟨w.host, by simp, h⟩

theorem not_mem_text {c : Byte} (hspace : c ≠ ch ' ') (hc : ∀ field, IsField field → c ∉ field) :
    c ∉ w.text := by
  intro h
  rcases mem_text h with rfl | ⟨field, hfield, h⟩
  · exact hspace rfl
  · exact hc field (w.isField field hfield) h

theorem newline_not_mem_text (w : WhoLine) : ch '\n' ∉ w.text :=
  not_mem_text (by decide) fun _ h => h.newline

/-- The line comes in one piece. -/
theorem readWhole (w : WhoLine) : ReadWhole w.line := by
  refine ⟨by simp [line], ?_, ?_⟩
  · intro h
    rcases List.mem_append.mp h with h | h
    · exact not_mem_text (by decide) (fun _ h => h.nul) h
    · exact absurd h (by decide)
  · have hshort := w.short
    unfold line
    rw [List.length_append, List.length_singleton]
    exact Nat.succ_lt_succ hshort

theorem beforeNewline_line (w : WhoLine) : beforeNewline w.line = w.text := by
  simp [beforeNewline, line]

theorem fields_line (w : WhoLine) : fields w.line = [w.name, w.tty, w.date, w.time, w.host] := by
  have hname : IsField w.name := w.isField _ (by simp)
  have htty : IsField w.tty := w.isField _ (by simp)
  have hdate : IsField w.date := w.isField _ (by simp)
  have htime : IsField w.time := w.isField _ (by simp)
  have hhost : IsField w.host := w.isField _ (by simp)
  have hhost' := starts_of_isField hhost []
  rw [List.append_nil] at hhost'
  unfold fields
  rw [beforeNewline_line]
  unfold WhoFields.text WhoFields.rest
  rw [splitCompress_field hname (w.pads _ (by simp)) (starts_of_isField htty _),
    splitCompress_field htty (w.pads _ (by simp)) (starts_of_isField hdate _),
    splitCompress_field hdate (w.pads _ (by simp)) (starts_of_isField htime _),
    splitCompress_field htime (w.pads _ (by simp)) hhost', splitCompress_singleton hhost.space]

@[simp] theorem firstField_line (w : WhoLine) : firstField w.line = w.name := by
  unfold firstField
  rw [fields_line]
  rfl

theorem hasFields (w : WhoLine) : HasFields w.line := by
  refine Or.inr ⟨w.host, ?_, (w.isField _ (by simp)).ne_nil⟩
  rw [fields_line]
  rfl

/-- A line adds at most one user: a local one for `:0`, and only for `:0`. -/
theorem newSessions_cases (w : WhoLine) :
    (w.tty = str ":0" ∧ ∃ u, newSessions w.line = [u] ∧ u.name = w.name ∧ u.isLocal = true) ∨
      (w.tty ≠ str ":0" ∧ (newSessions w.line = [] ∨
        ∃ u, newSessions w.line = [u] ∧ u.name = w.name ∧ u.isLocal = false)) := by
  have hnew : newSessions w.line
      = (newSession w.name [w.name, w.tty, w.date, w.time, w.host]).getD [] := by
    unfold newSessions
    rw [firstField_line, fields_line]
  rw [hnew]
  unfold newSession
  by_cases htty : w.tty = str ":0"
  · exact Or.inl ⟨htty, by simp [htty]⟩
  · refine Or.inr ⟨htty, ?_⟩
    by_cases hhost : w.host = str "(:0)"
    · exact Or.inl (by simp [htty, hhost])
    · right
      have hlen : ¬ w.host.length < 1 :=
        Nat.not_lt.mpr (List.length_pos_iff.mpr (w.isField _ (by simp)).ne_nil)
      simp [htty, hhost, substr, hlen]

theorem eq_of_mem_newSessions {u : Session} (h : u ∈ newSessions w.line) :
    u.name = w.name ∧ (u.isLocal = true ↔ w.tty = str ":0") := by
  rcases w.newSessions_cases with ⟨htty, v, hv, hname, hlocal⟩ |
    ⟨htty, hnil | ⟨v, hv, hname, hlocal⟩⟩
  · obtain rfl := List.mem_singleton.mp (hv ▸ h)
    exact ⟨hname, iff_of_true hlocal htty⟩
  · exact absurd (hnil ▸ h) List.not_mem_nil
  · obtain rfl := List.mem_singleton.mp (hv ▸ h)
    exact ⟨hname, iff_of_false (by simp [hlocal]) htty⟩

theorem pairwise_newSessions (r : Session → Session → Prop) (w : WhoLine) :
    (newSessions w.line).Pairwise r := by
  rcases w.newSessions_cases with ⟨-, v, hv, -⟩ | ⟨-, hnil | ⟨v, hv, -⟩⟩
  · exact hv ▸ List.pairwise_singleton r v
  · exact hnil ▸ List.Pairwise.nil
  · exact hv ▸ List.pairwise_singleton r v

end WhoLine

/-- The lines that the program reads. -/
theorem whoLines_whoOutput (ws : List WhoLine) :
    whoLines (whoOutput ws) = ws.map WhoLine.line := by
  have hraw : rawLines (whoOutput ws) = ws.map WhoLine.line := by
    have hnl : ∀ line ∈ ws.map fun w => w.text, ch '\n' ∉ line := by
      intro line hline
      obtain ⟨w, -, rfl⟩ := List.mem_map.mp hline
      exact w.newline_not_mem_text
    have h := rawLines_flatMap hnl
    rwa [List.flatMap_map, List.map_map] at h
  rw [whoLines_eq, hraw]
  intro line hline
  rw [hraw] at hline
  obtain ⟨w, -, rfl⟩ := List.mem_map.mp hline
  exact w.readWhole

/-! ### Who is found -/

/-- In a list whose names ascend, `get_current_local_user` finds the least name. -/
theorem getCurrentLocalUser_le {users : List User} (h : users.Pairwise fun u v => u.name < v.name)
    {u : User} (hu : u ∈ users) (hlocal : u.isLocal = true) :
    (∃ v ∈ users, v.isLocal = true ∧ getCurrentLocalUser users = v.name) ∧
      getCurrentLocalUser users ≤ u.name := by
  induction users with
  | nil => exact absurd hu List.not_mem_nil
  | cons v users ih =>
      obtain ⟨hv, hrest⟩ := List.pairwise_cons.mp h
      unfold getCurrentLocalUser
      split
      · next hfirst =>
        refine ⟨⟨v, List.mem_cons_self, hfirst, rfl⟩, ?_⟩
        rcases List.mem_cons.mp hu with rfl | hu
        · exact List.le_refl _
        · exact List.le_of_lt (hv u hu)
      · next hfirst =>
        have hu : u ∈ users := by
          rcases List.mem_cons.mp hu with rfl | hu
          · exact absurd hlocal hfirst
          · exact hu
        obtain ⟨⟨x, hx, hxlocal, hxname⟩, hle⟩ := ih hrest hu
        exact ⟨⟨x, List.mem_cons_of_mem v hx, hxlocal, hxname⟩, hle⟩

/-- Where nobody is local, the empty string is returned. -/
theorem getCurrentLocalUser_eq_nil {users : List User} (h : ∀ u ∈ users, u.isLocal = false) :
    getCurrentLocalUser users = [] := by
  induction users with
  | nil => rfl
  | cons u users ih =>
      unfold getCurrentLocalUser
      rw [if_neg (by simp [h u List.mem_cons_self])]
      exact ih fun v hv => h v (List.mem_cons_of_mem u hv)

section
variable {ws : List WhoLine} {lines : List Bytes}
  (hlines : ∀ line, line ∈ lines ↔ ∃ w ∈ ws, w.line = line) (hsorted : lines.Pairwise (· < ·))

/-- The users that the loop over the lines adds. -/
def addedUsers (lines : List Bytes) : List Session :=
  (runHeads firstField [] lines).flatMap newSessions

include hlines hsorted

/-- The head of a run is a line of `who`. -/
theorem line_of_mem_runHeads {head : Bytes} (h : head ∈ runHeads firstField [] lines) :
    ∃ w ∈ ws, w.line = head :=
  (hlines head).mp ((mem_runHeads_iff hsorted).mp h).1

/-- The names of the users ascend. -/
theorem pairwise_addedUsers : (addedUsers lines).Pairwise fun u v => u.name < v.name := by
  have hkeys : lines.Pairwise fun a b =>
      firstField b = firstField a ∨ firstField a < firstField b := by
    refine hsorted.imp_of_mem ?_
    intro a b ha hb hlt
    obtain ⟨w, -, rfl⟩ := (hlines a).mp ha
    obtain ⟨w', -, rfl⟩ := (hlines b).mp hb
    simpa using WhoLine.name_of_line_lt hlt
  refine List.pairwise_flatMap.mpr ⟨fun head hhead => ?_, ?_⟩
  · obtain ⟨w, -, rfl⟩ := line_of_mem_runHeads hlines hsorted hhead
    exact w.pairwise_newSessions _
  · refine (pairwise_runHeads hkeys).imp_of_mem ?_
    intro a b ha hb hlt u hu v hv
    obtain ⟨w, -, rfl⟩ := line_of_mem_runHeads hlines hsorted ha
    obtain ⟨w', -, rfl⟩ := line_of_mem_runHeads hlines hsorted hb
    rw [(WhoLine.eq_of_mem_newSessions hu).1, (WhoLine.eq_of_mem_newSessions hv).1]
    simpa using hlt

/-- A user is added for a line of its name. -/
theorem line_of_mem_addedUsers {u : Session} (hu : u ∈ addedUsers lines) :
    ∃ w ∈ ws, u.name = w.name ∧ (u.isLocal = true ↔ w.tty = str ":0") := by
  obtain ⟨head, hhead, hu⟩ := List.mem_flatMap.mp hu
  obtain ⟨w, hw, rfl⟩ := line_of_mem_runHeads hlines hsorted hhead
  exact ⟨w, hw, WhoLine.eq_of_mem_newSessions hu⟩

/-- The local users are the names that have a line for `:0`. -/
theorem local_addedUsers_iff (hpad : SamePadding ws) (name : Bytes) :
    (∃ u ∈ addedUsers lines, u.name = name ∧ u.isLocal = true) ↔ HasLocalLine ws name := by
  constructor
  · rintro ⟨u, hu, rfl, hlocal⟩
    obtain ⟨w, hw, hname, htty⟩ := line_of_mem_addedUsers hlines hsorted hu
    exact ⟨w, hw, hname.symm, htty.mp hlocal⟩
  · rintro ⟨w, hw, rfl, htty⟩
    have hne : firstField w.line ≠ [] := by
      rw [WhoLine.firstField_line]
      exact (w.isField _ (by simp)).ne_nil
    obtain ⟨head, hhead, hkey, hfirst⟩ := exists_runHead hsorted ((hlines _).mpr ⟨w, hw, rfl⟩) hne
    obtain ⟨w', hw', rfl⟩ := line_of_mem_runHeads hlines hsorted hhead
    have hname : w'.name = w.name := by simpa using hkey
    -- a line for another terminal would come behind the one for `:0`
    have htty' : w'.tty = str ":0" := by
      by_contra hother
      have hlt : w.line < w'.line :=
        WhoLine.line_lt_of_tty hname.symm (hpad w hw w' hw' hname.symm) htty hother
      rcases hfirst with heq | hlt'
      · exact List.lt_irrefl _ (heq ▸ hlt)
      · exact List.lt_asymm hlt hlt'
    rcases w'.newSessions_cases with ⟨-, u, hu, huname, hulocal⟩ | ⟨hother, -⟩
    · refine ⟨u, List.mem_flatMap.mpr ⟨_, hhead, ?_⟩, huname.trans hname, hulocal⟩
      rw [hu]
      exact List.mem_singleton_self u
    · exact absurd htty' hother

/-- What the loop over the lines adds. -/
theorem localUsers_addedUsers (hpad : SamePadding ws) : LocalUsers ws (addedUsers lines) := by
  have hlocal := local_addedUsers_iff hlines hsorted hpad
  have hsortedNames : ((addedUsers lines).map Session.toUser).Pairwise
      fun u v => u.name < v.name := List.pairwise_map.mpr (pairwise_addedUsers hlines hsorted)
  refine ⟨?_, ?_, hlocal, ?_, ?_⟩
  · refine List.pairwise_map.mpr ((pairwise_addedUsers hlines hsorted).imp ?_)
    intro u v hlt heq
    rw [heq] at hlt
    exact List.lt_irrefl _ hlt
  · intro u hu
    obtain ⟨w, hw, hname, -⟩ := line_of_mem_addedUsers hlines hsorted hu
    exact ⟨w, hw, hname.symm⟩
  · rintro ⟨name, hname⟩
    have hle (name : Bytes) (hname : HasLocalLine ws name) :
        (∃ v ∈ (addedUsers lines).map Session.toUser, v.isLocal = true ∧
          getCurrentLocalUser ((addedUsers lines).map Session.toUser) = v.name) ∧
          getCurrentLocalUser ((addedUsers lines).map Session.toUser) ≤ name := by
      obtain ⟨u, hu, rfl, hulocal⟩ := (hlocal name).mpr hname
      exact getCurrentLocalUser_le hsortedNames (List.mem_map_of_mem hu) hulocal
    obtain ⟨⟨v, hv, hvlocal, hvname⟩, -⟩ := hle name hname
    obtain ⟨u, hu, rfl⟩ := List.mem_map.mp hv
    exact ⟨(hlocal _).mp ⟨u, hu, hvname.symm, hvlocal⟩, fun name hname => (hle name hname).2⟩
  · intro hnone
    refine getCurrentLocalUser_eq_nil fun v hv => ?_
    obtain ⟨u, hu, rfl⟩ := List.mem_map.mp hv
    exact Bool.eq_false_iff.mpr fun hulocal => hnone u.name ((hlocal _).mp ⟨u, hu, rfl, hulocal⟩)

end

/-- For every output of this form: each name is added at most once, the local users are the names
with a line for `:0`, and `get_current_local_user` returns the least of them. -/
theorem localUsers_of_who (ws : List WhoLine) (hpad : SamePadding ws) :
    ∃ users, linuxLoggedIn (whoOutput ws) [] = some (!users.isEmpty, users) ∧
      LocalUsers ws users := by
  have hsorted := pairwise_sortUnique_lt (whoLines (whoOutput ws))
  have hlines : ∀ line, line ∈ sortUnique (· ≤ ·) (whoLines (whoOutput ws)) ↔
      ∃ w ∈ ws, w.line = line := by
    intro line
    rw [mem_sortUnique, whoLines_whoOutput, List.mem_map]
  refine ⟨addedUsers (sortUnique (· ≤ ·) (whoLines (whoOutput ws))), ?_,
    localUsers_addedUsers hlines hsorted hpad⟩
  refine linuxLoggedIn_eq_some_iff.mpr (foldlM_linePass_iff.mpr ⟨?_, ?_, rfl⟩)
  · intro line hline
    obtain ⟨w, -, rfl⟩ := (hlines line).mp hline
    exact w.readWhole.newline
  · intro line hline
    obtain ⟨w, -, rfl⟩ := line_of_mem_runHeads hlines hsorted hline
    exact w.hasFields

/-- A session over the network. -/
def remoteLine : WhoLine where
  name := str "ann"
  namePad := 6
  tty := str "pts/0"
  ttyPad := 2
  date := str "2014-02-03"
  datePad := 1
  time := str "09:15"
  timePad := 1
  host := str "(far)"
  isField := by decide
  pads := by decide
  aboveSpace := by decide +kernel
  terminal := Or.inr ⟨ch 'p', str "ts/0", by decide, Or.inr (by decide)⟩
  short := by decide +kernel

/-- The same user at the screen. -/
def screenLine : WhoLine where
  name := str "ann"
  namePad := 6
  tty := str ":0"
  ttyPad := 5
  date := str "2014-02-03"
  datePad := 1
  time := str "09:20"
  timePad := 1
  host := str "(:0)"
  isField := by decide
  pads := by decide
  aboveSpace := by decide +kernel
  terminal := Or.inl rfl
  short := by decide +kernel

/-- The screen and the session. -/
theorem localUsers_of_who_both :
    ∃ users, linuxLoggedIn (whoOutput [remoteLine, screenLine]) [] = some (!users.isEmpty, users) ∧
      LocalUsers [remoteLine, screenLine] users := by
  refine localUsers_of_who _ ?_
  intro w hw w' hw' _
  simp only [List.mem_cons, List.not_mem_nil, or_false] at hw hw'
  rcases hw with rfl | rfl <;> rcases hw' with rfl | rfl <;> rfl

end Monitoring.Client
