import Monitoring.Client.LoggedIn
import Monitoring.Lib.RunHeads

/-!
# `Monitoring.Proofs.LoggedIn`: the outputs of `who` that the client survives

Three things end `linux_logged_in`: a piece without a newline, in `split_string`; a line with too
few fields, at `splits[1]` or `splits[4]`; and an empty fifth field, in `substr`. A line is only
looked at if its name is not that of the line before, in byte order. `foldlM_linePass_iff` is the
loop, and `linuxLoggedIn_isSome_iff` says which outputs it survives, in terms of the output.

The next function, `check_allowed_accounts`, kicks for the first user only
(`checkAllowedAccounts_iff`).
-/

set_option autoImplicit false

namespace Monitoring.Client

open Monitoring.Lib

/-- The fields of a line. -/
def fields (line : Bytes) : List Bytes := splitCompress (ch ' ') (beforeNewline line)

/-- What is in front of the first space. -/
def firstField (line : Bytes) : Bytes := (fields line).headD []

/-- The fields that are looked at if the line opens a new name: the second is `:0`, or there is a
fifth, and it is not empty. -/
def HasFields (line : Bytes) : Prop :=
  (fields line)[1]? = some (str ":0") ∨ ∃ host, (fields line)[4]? = some host ∧ host ≠ []

/-- The users that the line adds if it opens a new name. -/
def newSessions (line : Bytes) : List Session :=
  (newSession (firstField line) (fields line)).getD []

/-- The line comes in one piece, with its newline. -/
structure ReadWhole (line : Bytes) : Prop where
  newline : ch '\n' ∈ line
  nul : 0 ∉ line
  fits : line.length < whoSize

/-- An output that `linux_logged_in` survives. -/
structure Survivable (output : Bytes) : Prop where
  readWhole : ∀ line ∈ rawLines output, ReadWhole line
  hasFields : ∀ line ∈ rawLines output,
    IsRunHead (· < ·) firstField [] (rawLines output) line → HasFields line

/-! ### A line -/

theorem fields_eq_cons (line : Bytes) : ∃ rest, fields line = firstField line :: rest := by
  obtain ⟨first, rest, h⟩ := List.exists_cons_of_ne_nil
    (List.splitOn_ne_nil (ch ' ') (mergeSeparators (ch ' ') (beforeNewline line)))
  refine ⟨rest, ?_⟩
  have hfields : fields line = first :: rest := h
  unfold firstField
  rw [hfields]
  rfl

theorem newSession_isSome_iff (name line : Bytes) :
    (newSession name (fields line)).isSome ↔ HasFields line := by
  unfold newSession HasFields
  cases htty : (fields line)[1]? with
  | none =>
      have hhost : (fields line)[4]? = none := by
        rw [List.getElem?_eq_none_iff] at htty ⊢
        omega
      simp [hhost]
  | some tty =>
      by_cases hlocal : tty = str ":0"
      · simp [hlocal]
      · cases hhost : (fields line)[4]? with
        | none => simp [hlocal]
        | some host =>
            by_cases hshown : host = str "(:0)"
            · simp [hlocal, hshown, show str "(:0)" ≠ [] by decide]
            · have hsubstr : (substr host 1 (host.length - 2)).isSome ↔ host ≠ [] := by
                unfold substr
                rw [← List.length_pos_iff]
                by_cases hempty : host.length < 1
                · rw [if_pos hempty]
                  exact iff_of_false (by simp) (by omega)
                · rw [if_neg hempty]
                  exact iff_of_true rfl (by omega)
              simp [hlocal, hshown, hsubstr]

/-- A pass of the inner loop leaves nothing to do for the next one. -/
theorem fieldPass_again {splits : List Bytes} {s t : Bytes × List Session}
    (h : fieldPass splits s = some t) : fieldPass splits t = some t := by
  unfold fieldPass at h ⊢
  cases hfirst : splits[0]? with
  | none =>
      rw [hfirst] at h
      cases h
  | some first =>
      rw [hfirst] at h
      dsimp only at h ⊢
      have hname : t.1 = first := by
        split at h
        · obtain ⟨new, -, rfl⟩ := Option.map_eq_some_iff.mp h
          rfl
        · next hsame =>
          obtain rfl := Option.some.inj h
          exact not_not.mp hsame
      rw [if_neg (not_not.mpr hname)]

/-- The inner loop is its first pass. -/
theorem foldlM_fieldPass {splits : List Bytes} (hne : splits ≠ []) (s : Bytes × List Session) :
    splits.foldlM (fun s _ => fieldPass splits s) s = fieldPass splits s := by
  have hagain : ∀ (passes : List Bytes) (t : Bytes × List Session),
      fieldPass splits t = some t → passes.foldlM (fun s _ => fieldPass splits s) t = some t := by
    intro passes t ht
    induction passes with
    | nil => rfl
    | cons _ passes ih => rw [List.foldlM_cons, ht, Option.bind_eq_bind, Option.bind_some, ih]
  obtain ⟨first, rest, hsplits⟩ := List.exists_cons_of_ne_nil hne
  have hpasses : (first :: rest).foldlM (fun s _ => fieldPass splits s) s = fieldPass splits s := by
    rw [List.foldlM_cons]
    cases ht : fieldPass splits s with
    | none => rfl
    | some t => exact hagain rest t (fieldPass_again ht)
  rwa [← hsplits] at hpasses

theorem linePass_eq {line : Bytes} (hnl : ch '\n' ∈ line) (s : Bytes × List Session) :
    linePass s line =
      if firstField line = s.1 then some s
      else (newSession (firstField line) (fields line)).map fun new =>
        (firstField line, s.2 ++ new) := by
  obtain ⟨rest, hfields⟩ := fields_eq_cons line
  have hsplit : splitString line (ch ' ') true = some (fields line) := if_pos hnl
  unfold linePass
  rw [hsplit, Option.bind_some, foldlM_fieldPass (hfields ▸ List.cons_ne_nil _ _)]
  unfold fieldPass
  rw [show (fields line)[0]? = some (firstField line) by rw [hfields]; rfl]
  by_cases hname : firstField line = s.1
  · rw [if_pos hname]
    exact if_neg (not_not.mpr hname.symm)
  · rw [if_neg hname]
    exact if_pos (Ne.symm hname)

theorem linePass_none {line : Bytes} (hnl : ch '\n' ∉ line) (s : Bytes × List Session) :
    linePass s line = none := by
  have hsplit : splitString line (ch ' ') true = none := if_neg hnl
  unfold linePass
  rw [hsplit, Option.bind_none]

/-! ### The loop -/

/-- The loop comes to its end if there are newlines, and the lines that open a new name have their
fields. Then these lines add their users. -/
theorem foldlM_linePass_iff {lines : List Bytes} {name : Bytes} {users users' : List Session} :
    (lines.foldlM linePass (name, users)).map Prod.snd = some users' ↔
      (∀ line ∈ lines, ch '\n' ∈ line) ∧
        (∀ line ∈ runHeads firstField name lines, HasFields line) ∧
        users' = users ++ (runHeads firstField name lines).flatMap newSessions := by
  induction lines generalizing name users with
  | nil => simp [runHeads, eq_comm]
  | cons line lines ih =>
      rw [List.foldlM_cons, Option.bind_eq_bind]
      by_cases hnl : ch '\n' ∈ line
      · rw [linePass_eq hnl, List.forall_mem_cons, and_iff_right hnl]
        unfold runHeads
        by_cases hname : firstField line = name
        · rw [if_pos hname, if_pos hname, Option.bind_some, ih]
        · rw [if_neg hname, if_neg hname, List.forall_mem_cons, List.flatMap_cons]
          have hsome := newSession_isSome_iff (firstField line) line
          have hnew : newSessions line
              = (newSession (firstField line) (fields line)).getD [] := rfl
          cases hsession : newSession (firstField line) (fields line) with
          | none =>
              rw [hsession] at hsome
              have hmissing : ¬ HasFields line := fun h => absurd (hsome.mpr h) (by simp)
              simp [hmissing]
          | some new =>
              rw [hsession] at hsome hnew
              have hfields : HasFields line := hsome.mp rfl
              rw [Option.map_some, Option.bind_some, ih, and_iff_right hfields, hnew,
                List.append_assoc]
              rfl
      · rw [linePass_none hnl]
        refine iff_of_false (by simp) fun h => hnl (h.1 line List.mem_cons_self)

/-! ### The pieces -/

/-- Every piece has its newline exactly if every line comes in one piece, and then the pieces are
the lines. -/
theorem whoLines_newline_iff (output : Bytes) :
    (∀ oline ∈ whoLines output, ch '\n' ∈ oline) ↔ ∀ line ∈ rawLines output, ReadWhole line := by
  unfold whoLines
  constructor
  · intro h
    have hpieces : fgetsPieces (whoSize - 1) output = rawLines output := by
      refine fgetsFrom_eq_of_newlines fun piece hpiece => ?_
      exact (List.takeWhile_prefix _).subset (h _ (List.mem_map_of_mem hpiece))
    intro line hline
    rw [← hpieces] at hline
    have hnl : ch '\n' ∈ cstr line := h _ (List.mem_map_of_mem hline)
    have hlen : line.length ≤ whoSize - 1 := length_le_of_mem_fgetsPieces (by decide) hline
    rw [hpieces] at hline
    obtain ⟨body, hbody, rfl⟩ :=
      newline_ends_rawLine hline ((List.takeWhile_prefix _).subset hnl)
    refine ⟨by simp, fun hnul => ?_, Nat.lt_of_le_of_lt hlen (by decide)⟩
    have hnul' : 0 ∈ body := (List.mem_append.mp hnul).resolve_right (by decide)
    -- a NUL stands in front of the newline, and hides it
    obtain ⟨front, back, rfl, hfront⟩ := List.eq_append_cons_of_mem hnul'
    rw [List.append_assoc, cstr_append _ hfront, List.cons_append] at hnl
    exact hbody (List.mem_append_left _ ((List.mem_append.mp hnl).resolve_right List.not_mem_nil))
  · intro h
    have hpieces : fgetsPieces (whoSize - 1) output = rawLines output :=
      fgetsPieces_eq_rawLines (by decide) fun line hline => Nat.le_pred_of_lt (h line hline).fits
    rw [hpieces]
    intro oline holine
    obtain ⟨line, hline, rfl⟩ := List.mem_map.mp holine
    rw [cstr_eq_self (h line hline).nul]
    exact (h line hline).newline

/-- Lines that come in one piece are the strings that are pushed. -/
theorem whoLines_eq {output : Bytes} (h : ∀ line ∈ rawLines output, ReadWhole line) :
    whoLines output = rawLines output := by
  have hpieces : fgetsPieces (whoSize - 1) output = rawLines output :=
    fgetsPieces_eq_rawLines (by decide) fun line hline => Nat.le_pred_of_lt (h line hline).fits
  unfold whoLines
  rw [hpieces]
  exact (List.map_congr_left fun line hline => cstr_eq_self (h line hline).nul).trans
    (List.map_id _)

/-- The strings that the loop goes over ascend. -/
theorem pairwise_sortUnique_lt (texts : List Bytes) :
    (sortUnique (· ≤ ·) texts).Pairwise (· < ·) := by
  refine (pairwise_sortUnique (· ≤ ·) texts).imp ?_
  rintro a b ⟨hle, hne⟩
  exact (List.le_iff_lt_or_eq.mp hle).resolve_right hne

/-- The end of `linux_logged_in`. -/
theorem linuxLoggedIn_eq_some_iff {output : Bytes} {users users' : List Session} :
    linuxLoggedIn output users = some (!users'.isEmpty, users') ↔
      ((sortUnique (· ≤ ·) (whoLines output)).foldlM linePass ([], users)).map Prod.snd
        = some users' := by
  unfold linuxLoggedIn
  cases (sortUnique (· ≤ ·) (whoLines output)).foldlM linePass ([], users) with
  | none => simp
  | some s =>
      simp only [Option.map_some, Option.some.injEq, Prod.mk.injEq]
      exact ⟨And.right, fun h => ⟨by rw [h], h⟩⟩

/-- For every output of `who`, whatever is in `currentUsers`: `linux_logged_in` comes to its end
exactly if every line ends with a newline, has no NUL and less than 200 bytes, and every line that
opens a new name has `:0` as its second field, or a fifth one that is not empty. -/
theorem linuxLoggedIn_isSome_iff (output : Bytes) (currentUsers : List Session) :
    (linuxLoggedIn output currentUsers).isSome ↔ Survivable output := by
  have hloop : (linuxLoggedIn output currentUsers).isSome ↔
      (∀ oline ∈ whoLines output, ch '\n' ∈ oline) ∧
        ∀ line ∈ runHeads firstField [] (sortUnique (· ≤ ·) (whoLines output)),
          HasFields line := by
    unfold linuxLoggedIn
    rw [Option.isSome_map, ← Option.isSome_map (f := Prod.snd), Option.isSome_iff_exists]
    simp only [foldlM_linePass_iff, mem_sortUnique, exists_and_left, exists_eq, and_true]
  have hheads (hread : ∀ line ∈ rawLines output, ReadWhole line) (line : Bytes) :
      line ∈ runHeads firstField [] (sortUnique (· ≤ ·) (whoLines output)) ↔
        line ∈ rawLines output ∧ IsRunHead (· < ·) firstField [] (rawLines output) line := by
    rw [mem_runHeads_iff (pairwise_sortUnique_lt _), whoLines_eq hread, mem_sortUnique,
      isRunHead_congr fun b => mem_sortUnique _ _]
  rw [hloop, whoLines_newline_iff]
  constructor
  · rintro ⟨hread, hfields⟩
    exact ⟨hread, fun line hline hhead => hfields line ((hheads hread line).mpr ⟨hline, hhead⟩)⟩
  · rintro ⟨hread, hfields⟩
    refine ⟨hread, fun line hline => ?_⟩
    obtain ⟨hmem, hhead⟩ := (hheads hread line).mp hline
    exact hfields line hmem hhead

/-- A login at the console, where `who` prints no host; and a last line without its newline. -/
theorem linuxLoggedIn_isSome_fails :
    ¬ (linuxLoggedIn (str "root tty1 2014-02-03 09:15\n") []).isSome ∧
      ¬ (linuxLoggedIn (str "ann :0 2014-02-03 09:15 (:0)") []).isSome := by
  decide +kernel

/-! ### `check_allowed_accounts` -/

/-- The name of the user matches one of the patterns. -/
def Blocked (search : Bytes → Bytes → Bool) (br : Bytes) (u : User) : Prop :=
  ∃ pattern ∈ br.splitOn (ch ','), search pattern u.name = true

/-- The function calls `kick_expired_accounts`. -/
def Kicks (search : Bytes → Bytes → Bool) (br : Bytes) (currentUsers : List User) : Prop :=
  ∃ count, checkAllowedAccounts search br currentUsers = some count ∧ 0 < count

/-- It kicks exactly if the first user is blocked. -/
theorem kicks_cons_iff {search : Bytes → Bytes → Bool} {br : Bytes} (hbr : br ≠ str "null")
    (u : User) (us : List User) : Kicks search br (u :: us) ↔ Blocked search br u := by
  unfold Kicks checkAllowedAccounts Blocked
  rw [if_neg hbr]
  simp only [Option.some.injEq, exists_eq_left', List.countP_pos_iff]

/-- For every way to search and every list of patterns: the function kicks exactly if some user is
blocked, if and only if the first user is blocked or nobody is. -/
theorem checkAllowedAccounts_iff (search : Bytes → Bytes → Bool) {br : Bytes}
    (hbr : br ≠ str "null") {currentUsers : List User} (hne : currentUsers ≠ []) :
    (Kicks search br currentUsers ↔ ∃ u ∈ currentUsers, Blocked search br u) ↔
      (Blocked search br (currentUsers.head hne) ∨ ∀ u ∈ currentUsers, ¬ Blocked search br u) := by
  obtain ⟨u, us, rfl⟩ := List.exists_cons_of_ne_nil hne
  rw [kicks_cons_iff hbr, List.head_cons]
  by_cases hfirst : Blocked search br u
  · exact iff_of_true (iff_of_true hfirst ⟨u, List.mem_cons_self, hfirst⟩) (Or.inl hfirst)
  · simp only [hfirst, false_iff, false_or, not_exists, not_and]

/-- A blocked user who is the first one. -/
theorem checkAllowedAccounts_iff_first :
    Kicks (fun pattern name => pattern = name) (str "gp") [⟨str "gp", true⟩, ⟨str "ann", false⟩] ↔
      ∃ u ∈ [(⟨str "gp", true⟩ : User), ⟨str "ann", false⟩],
        Blocked (fun pattern name => pattern = name) (str "gp") u :=
  (checkAllowedAccounts_iff _ (by decide) (List.cons_ne_nil _ _)).mpr
    (Or.inl ⟨str "gp", by decide, by decide⟩)

/-- A blocked user behind a remote session: the function does not kick. -/
theorem checkAllowedAccounts_fails :
    ¬ (Kicks (fun pattern name => pattern = name) (str "gp")
        [⟨str "ann", false⟩, ⟨str "gp", true⟩] ↔
      ∃ u ∈ [(⟨str "ann", false⟩ : User), ⟨str "gp", true⟩],
        Blocked (fun pattern name => pattern = name) (str "gp") u) := by
  intro h
  obtain ⟨count, hcount, hpos⟩ :=
    h.mpr ⟨⟨str "gp", true⟩, by decide, str "gp", by decide, by decide⟩
  obtain rfl := Option.some.inj hcount
  exact absurd hpos (by decide)

end Monitoring.Client
