import Monitoring.Lib.CText

/-!
# `Monitoring.Lib.Lines`: the lines of a file, as the C `getline` and `fgets` deliver them

`rawLines text` is what repeated calls of `getline` return: each line with its newline, and at
the end the rest without one, if there is any. So no line is empty (`ne_nil_of_mem_rawLines`).

`fgetsPieces size text` is what repeated calls of `fgets` return, with room for `size` bytes and the
NUL. A piece ends behind a newline, or where the room ends: lines that fit are pieces
(`fgetsPieces_eq_rawLines`), and a longer line fills a piece (`length_fgetsPieces_lt_iff`).
-/

set_option autoImplicit false

namespace Monitoring.Lib

/-- The lines of a text. A byte in front of the text opens a new line if it is a newline, and
otherwise belongs to the first line. -/
def rawLines : Bytes → List Bytes
  | [] => []
  | c :: cs =>
      if c = ch '\n' then [c] :: rawLines cs
      else match rawLines cs with
        | [] => [[c]]
        | line :: lines => (c :: line) :: lines

/-- The first line goes up to the first newline. -/
theorem rawLines_line {line : Bytes} (h : ch '\n' ∉ line) (rest : Bytes) :
    rawLines (line ++ ch '\n' :: rest) = (line ++ [ch '\n']) :: rawLines rest := by
  induction line with
  | nil => exact if_pos rfl
  | cons c line ih =>
      obtain ⟨hc, hline⟩ := List.ne_and_not_mem_of_not_mem_cons h
      rw [List.cons_append, rawLines, if_neg (Ne.symm hc), ih hline]
      rfl

/-- A text that ends each of its lines with a newline. -/
theorem rawLines_flatMap {lines : List Bytes} (h : ∀ line ∈ lines, ch '\n' ∉ line) :
    rawLines (lines.flatMap fun line => line ++ [ch '\n']) =
      lines.map fun line => line ++ [ch '\n'] := by
  induction lines with
  | nil => rfl
  | cons line lines ih =>
      have ih := ih fun l hl => h l (List.mem_cons_of_mem _ hl)
      rw [List.flatMap_cons, List.append_assoc, List.map_cons, ← ih]
      exact rawLines_line (h line List.mem_cons_self) _

/-- `getline` returns at least one byte. -/
theorem ne_nil_of_mem_rawLines {text line : Bytes} (h : line ∈ rawLines text) : line ≠ [] := by
  induction text generalizing line with
  | nil => exact absurd h List.not_mem_nil
  | cons c cs ih =>
      unfold rawLines at h
      split at h
      · rcases List.mem_cons.mp h with rfl | h
        · exact List.cons_ne_nil _ _
        · exact ih h
      · cases hlines : rawLines cs with
        | nil =>
            rw [hlines] at h
            rw [List.mem_singleton.mp h]
            exact List.cons_ne_nil _ _
        | cons first rest =>
            rw [hlines] at h
            rcases List.mem_cons.mp h with rfl | h
            · exact List.cons_ne_nil _ _
            · exact ih (hlines ▸ List.mem_cons_of_mem _ h)

/-- A newline ends its line. -/
theorem newline_ends_rawLine {text line : Bytes} (h : line ∈ rawLines text) (hnl : ch '\n' ∈ line) :
    ∃ body, ch '\n' ∉ body ∧ line = body ++ [ch '\n'] := by
  induction text generalizing line with
  | nil => exact absurd h List.not_mem_nil
  | cons c cs ih =>
      unfold rawLines at h
      split at h
      · next hc =>
        rcases List.mem_cons.mp h with rfl | h
        · exact ⟨[], List.not_mem_nil, congrArg ([·]) hc⟩
        · exact ih h hnl
      · next hc =>
        cases hlines : rawLines cs with
        | nil =>
            rw [hlines] at h
            rw [List.mem_singleton.mp h] at hnl
            exact absurd (List.mem_singleton.mp hnl).symm hc
        | cons first rest =>
            rw [hlines] at h ih
            rcases List.mem_cons.mp h with rfl | h
            · have hfirst : ch '\n' ∈ first :=
                (List.mem_cons.mp hnl).resolve_left (Ne.symm hc)
              obtain ⟨body, hbody, rfl⟩ := ih List.mem_cons_self hfirst
              refine ⟨c :: body, fun hmem => ?_, rfl⟩
              rcases List.mem_cons.mp hmem with heq | hmem
              · exact hc heq.symm
              · exact hbody hmem
            · exact ih (List.mem_cons_of_mem first h) hnl

/-- A text is its lines. -/
theorem flatten_rawLines (text : Bytes) : (rawLines text).flatten = text := by
  induction text with
  | nil => rfl
  | cons c cs ih =>
      unfold rawLines
      by_cases hc : c = ch '\n'
      · rw [if_pos hc, List.flatten_cons, ih]
        rfl
      · rw [if_neg hc]
        cases hlines : rawLines cs with
        | nil =>
            rw [hlines] at ih
            rw [← ih]
            rfl
        | cons line lines =>
            rw [hlines] at ih
            rw [← ih]
            rfl

/-- Two texts that start with a whole line agree on the line, and on the rest. -/
theorem line_unique {line line' rest rest' : Bytes} (h : ch '\n' ∉ line) (h' : ch '\n' ∉ line')
    (heq : line ++ ch '\n' :: rest = line' ++ ch '\n' :: rest') : line = line' ∧ rest = rest' := by
  induction line generalizing line' with
  | nil =>
      cases line' with
      | nil => exact ⟨rfl, (List.cons.inj heq).2⟩
      | cons c line' => exact absurd ((List.cons.inj heq).1 ▸ List.mem_cons_self) h'
  | cons c line ih =>
      obtain ⟨hc, hline⟩ := List.ne_and_not_mem_of_not_mem_cons h
      cases line' with
      | nil => exact absurd (List.cons.inj heq).1.symm hc
      | cons d line' =>
          obtain ⟨rfl, htail⟩ := List.cons.inj heq
          obtain ⟨rfl, hrest⟩ := ih hline (List.not_mem_of_not_mem_cons h') htail
          exact ⟨rfl, hrest⟩

/-- A text and its newline occur exactly where a line ends in both. -/
theorem infix_rawLines_iff {line text : Bytes} (hline : ch '\n' ∉ line) :
    line ++ [ch '\n'] <:+: text ↔ ∃ found ∈ rawLines text, line ++ [ch '\n'] <:+ found := by
  constructor
  · rintro ⟨before, after, rfl⟩
    induction hlen : before.length using Nat.strong_induction_on generalizing before with
    | _ n ih =>
        by_cases hbefore : ch '\n' ∈ before
        · -- the text stands behind the first line
          obtain ⟨first, before', rfl, hfirst⟩ := List.eq_append_cons_of_mem hbefore
          have hshorter : before'.length < n := by
            rw [← hlen, List.length_append, List.length_cons]
            omega
          obtain ⟨found, hfound, hsuffix⟩ := ih _ hshorter before' rfl
          refine ⟨found, ?_, hsuffix⟩
          rw [List.append_assoc, List.append_assoc, List.cons_append, rawLines_line hfirst,
            ← List.append_assoc before']
          exact List.mem_cons_of_mem _ hfound
        · have hnl : ch '\n' ∉ before ++ line := fun h =>
            (List.mem_append.mp h).elim hbefore hline
          refine ⟨before ++ line ++ [ch '\n'], ?_, before, (List.append_assoc _ _ _).symm⟩
          have hsplit : before ++ (line ++ [ch '\n']) ++ after
              = (before ++ line) ++ ch '\n' :: after := by
            simp only [List.append_assoc, List.singleton_append]
          rw [hsplit, rawLines_line hnl]
          exact List.mem_cons_self
  · rintro ⟨found, hfound, hsuffix⟩
    have hinfix : found <:+: (rawLines text).flatten := List.infix_of_mem_flatten hfound
    rw [flatten_rawLines] at hinfix
    exact hsuffix.isInfix.trans hinfix

/-- A text and its newline occur in some lines exactly if one of these ends in the text. -/
theorem infix_lines_iff {text : Bytes} {lines : List Bytes} (htext : ch '\n' ∉ text)
    (hlines : ∀ line ∈ lines, ch '\n' ∉ line) :
    text ++ [ch '\n'] <:+: lines.flatMap (fun line => line ++ [ch '\n']) ↔
      ∃ line ∈ lines, text <:+ line := by
  constructor
  · rintro ⟨before, after, heq⟩
    induction lines generalizing before with
    | nil => exact absurd heq (by simp)
    | cons line lines ih =>
        obtain ⟨hline, hrest⟩ := List.forall_mem_cons.mp hlines
        rw [List.flatMap_cons, List.append_assoc line] at heq
        by_cases hbefore : ch '\n' ∈ before
        · -- the text stands behind the first line
          obtain ⟨first, before', rfl, hfirst⟩ := List.eq_append_cons_of_mem hbefore
          have heq' : first ++ ch '\n' :: (before' ++ (text ++ [ch '\n']) ++ after)
              = line ++ ch '\n' :: lines.flatMap fun line => line ++ [ch '\n'] := by
            simpa using heq
          obtain ⟨found, hfound, hsuffix⟩ := ih hrest _ (line_unique hfirst hline heq').2
          exact ⟨found, List.mem_cons_of_mem _ hfound, hsuffix⟩
        · have hnl : ch '\n' ∉ before ++ text := fun h =>
            (List.mem_append.mp h).elim hbefore htext
          have heq' : (before ++ text) ++ ch '\n' :: after
              = line ++ ch '\n' :: lines.flatMap fun line => line ++ [ch '\n'] := by
            simpa using heq
          exact ⟨line, List.mem_cons_self, before, (line_unique hnl hline heq').1⟩
  · rintro ⟨line, hline, before, rfl⟩
    obtain ⟨front, back, rfl⟩ := List.append_of_mem hline
    refine ⟨(front.flatMap fun line => line ++ [ch '\n']) ++ before,
      back.flatMap fun line => line ++ [ch '\n'], ?_⟩
    simp

/-! ### `fgets` -/

/-- The pieces of a text; there is room for `room` bytes in the first one. -/
def fgetsFrom (size : Nat) : Nat → Bytes → List Bytes
  | _, [] => []
  | room, c :: cs =>
      if c = ch '\n' ∨ room ≤ 1 then [c] :: fgetsFrom size size cs
      else match fgetsFrom size (room - 1) cs with
        | [] => [[c]]
        | piece :: pieces => (c :: piece) :: pieces

/-- What repeated calls of `fgets` return. -/
def fgetsPieces (size : Nat) (text : Bytes) : List Bytes := fgetsFrom size size text

section
variable {size room : Nat} {text : Bytes}

theorem flatten_fgetsFrom (size room : Nat) (text : Bytes) :
    (fgetsFrom size room text).flatten = text := by
  induction text generalizing room with
  | nil => rfl
  | cons c cs ih =>
      unfold fgetsFrom
      by_cases hc : c = ch '\n' ∨ room ≤ 1
      · rw [if_pos hc, List.flatten_cons, ih]
        rfl
      · rw [if_neg hc]
        have ih := @ih (room - 1)
        cases hpieces : fgetsFrom size (room - 1) cs with
        | nil =>
            rw [hpieces] at ih
            rw [← ih]
            rfl
        | cons piece pieces =>
            rw [hpieces] at ih
            rw [← ih]
            rfl

/-- Nothing is lost between two calls. -/
theorem flatten_fgetsPieces (size : Nat) (text : Bytes) : (fgetsPieces size text).flatten = text :=
  flatten_fgetsFrom size size text

/-- A call returns at least one byte. -/
theorem ne_nil_of_mem_fgetsFrom {piece : Bytes} (h : piece ∈ fgetsFrom size room text) :
    piece ≠ [] := by
  induction text generalizing room piece with
  | nil => exact absurd h List.not_mem_nil
  | cons c cs ih =>
      unfold fgetsFrom at h
      split at h
      · rcases List.mem_cons.mp h with rfl | h
        · exact List.cons_ne_nil _ _
        · exact ih h
      · cases hpieces : fgetsFrom size (room - 1) cs with
        | nil =>
            rw [hpieces] at h
            rw [List.mem_singleton.mp h]
            exact List.cons_ne_nil _ _
        | cons first rest =>
            rw [hpieces] at h
            rcases List.mem_cons.mp h with rfl | h
            · exact List.cons_ne_nil _ _
            · exact ih (hpieces ▸ List.mem_cons_of_mem _ h)

/-- The first one of some pieces is shorter than `room`, and the others are shorter than `size`. -/
def PiecesLt (size room : Nat) : List Bytes → Prop
  | [] => True
  | piece :: pieces => piece.length < room ∧ ∀ p ∈ pieces, p.length < size

theorem piecesLt_self {pieces : List Bytes} :
    PiecesLt size size pieces ↔ ∀ p ∈ pieces, p.length < size := by
  cases pieces with
  | nil => simp [PiecesLt]
  | cons piece pieces => simp [PiecesLt]

/-- One byte more in the first piece. -/
theorem piecesLt_cons {c : Byte} {pieces : List Bytes} (hroom : 1 < room) :
    PiecesLt size room (match pieces with
        | [] => [[c]]
        | piece :: pieces => (c :: piece) :: pieces) ↔ PiecesLt size (room - 1) pieces := by
  cases pieces with
  | nil => simp [PiecesLt, hroom]
  | cons piece pieces =>
      simp only [PiecesLt, List.length_cons]
      exact and_congr_left fun _ => by omega

/-- The first piece has no more than the room there is, and every other one no more than `size`. -/
theorem piecesLt_fgetsFrom (hroom : 1 ≤ room) (hsize : room ≤ size) (text : Bytes) :
    PiecesLt (size + 1) (room + 1) (fgetsFrom size room text) := by
  induction text generalizing room with
  | nil => trivial
  | cons c cs ih =>
      unfold fgetsFrom
      by_cases hc : c = ch '\n' ∨ room ≤ 1
      · rw [if_pos hc]
        exact ⟨Nat.lt_succ_of_le hroom, piecesLt_self.mp (ih (by omega) (Nat.le_refl size))⟩
      · rw [if_neg hc]
        refine (piecesLt_cons (by omega)).mpr ?_
        have ih := @ih (room - 1) (by omega) (by omega)
        rwa [show room - 1 + 1 = room + 1 - 1 by omega] at ih

/-- A call returns at most `size` bytes. -/
theorem length_le_of_mem_fgetsPieces {piece : Bytes} (hsize : 1 ≤ size)
    (h : piece ∈ fgetsPieces size text) : piece.length ≤ size :=
  Nat.lt_succ_iff.mp (piecesLt_self.mp (piecesLt_fgetsFrom hsize (Nat.le_refl _) text) piece h)

/-- The pieces are shorter than the room exactly if the lines are. -/
theorem piecesLt_fgetsFrom_iff (hroom : 1 ≤ room) (hsize : room ≤ size) (text : Bytes) :
    PiecesLt size room (fgetsFrom size room text) ↔ PiecesLt size room (rawLines text) := by
  induction text generalizing room with
  | nil => exact Iff.rfl
  | cons c cs ih =>
      have hrest : (∀ p ∈ fgetsFrom size size cs, p.length < size) ↔
          ∀ p ∈ rawLines cs, p.length < size := by
        rw [← piecesLt_self, ← piecesLt_self]
        exact ih (by omega) (Nat.le_refl _)
      unfold fgetsFrom rawLines
      by_cases hnl : c = ch '\n'
      · rw [if_pos (Or.inl hnl), if_pos hnl]
        exact and_congr_right fun _ => hrest
      · rw [if_neg hnl]
        by_cases hone : room ≤ 1
        · -- the piece is full, and the line has at least this byte
          rw [if_pos (Or.inr hone)]
          refine iff_of_false (fun h => ?_) (fun h => ?_)
          · have hlen := h.1
            rw [List.length_singleton] at hlen
            omega
          · cases hlines : rawLines cs with
            | nil =>
                rw [hlines] at h
                have hlen := h.1
                rw [List.length_singleton] at hlen
                omega
            | cons line lines =>
                rw [hlines] at h
                have hlen := h.1
                rw [List.length_cons] at hlen
                omega
        · rw [if_neg (by tauto), piecesLt_cons (by omega), piecesLt_cons (by omega)]
          exact ih (by omega) (by omega)

/-- Lines that have room are read as they are. -/
theorem fgetsFrom_eq_rawLines (hroom : 1 ≤ room) (hsize : room ≤ size)
    (h : PiecesLt (size + 1) (room + 1) (rawLines text)) :
    fgetsFrom size room text = rawLines text := by
  induction text generalizing room with
  | nil => rfl
  | cons c cs ih =>
      unfold rawLines at h
      unfold fgetsFrom rawLines
      by_cases hnl : c = ch '\n'
      · rw [if_pos hnl] at h
        rw [if_pos (Or.inl hnl), if_pos hnl]
        exact congrArg ([c] :: ·) (ih (by omega) (Nat.le_refl _) (piecesLt_self.mpr h.2))
      · rw [if_neg hnl, piecesLt_cons (by omega), Nat.add_sub_cancel] at h
        rw [if_neg hnl]
        by_cases hone : room ≤ 1
        · -- nothing is left of the line, and so nothing of the text
          have hlines : rawLines cs = [] := by
            cases hlines : rawLines cs with
            | nil => rfl
            | cons line lines =>
                have hline : line ∈ rawLines cs := hlines ▸ List.mem_cons_self
                rw [hlines] at h
                have hpos := List.length_pos_iff.mpr (ne_nil_of_mem_rawLines hline)
                have hlt := h.1
                omega
          have hcs : cs = [] := by
            rw [← flatten_rawLines cs, hlines]
            rfl
          rw [if_pos (Or.inr hone), hcs]
          rfl
        · have hpieces : fgetsFrom size (room - 1) cs = rawLines cs :=
            ih (by omega) (by omega) (by rwa [Nat.sub_add_cancel hroom])
          rw [if_neg (by tauto), hpieces]

/-- Lines of at most `size` bytes are read one by one. -/
theorem fgetsPieces_eq_rawLines (hsize : 1 ≤ size)
    (h : ∀ line ∈ rawLines text, line.length ≤ size) :
    fgetsPieces size text = rawLines text :=
  fgetsFrom_eq_rawLines hsize (Nat.le_refl _)
    (piecesLt_self.mpr fun line hline => Nat.lt_succ_of_le (h line hline))

/-- If every piece ends with a newline, no line was cut. -/
theorem fgetsFrom_eq_of_newlines (h : ∀ piece ∈ fgetsFrom size room text, ch '\n' ∈ piece) :
    fgetsFrom size room text = rawLines text := by
  induction text generalizing room with
  | nil => rfl
  | cons c cs ih =>
      unfold fgetsFrom at h ⊢
      unfold rawLines
      by_cases hnl : c = ch '\n'
      · rw [if_pos (Or.inl hnl)] at h
        rw [if_pos (Or.inl hnl), if_pos hnl]
        exact congrArg ([c] :: ·) (ih fun piece hpiece => h piece (List.mem_cons_of_mem _ hpiece))
      · by_cases hone : room ≤ 1
        · rw [if_pos (Or.inr hone)] at h
          exact absurd (List.mem_singleton.mp (h [c] List.mem_cons_self)).symm hnl
        · have hroom : ¬ (c = ch '\n' ∨ room ≤ 1) := by tauto
          rw [if_neg hroom] at h
          rw [if_neg hroom, if_neg hnl]
          have hpieces : fgetsFrom size (room - 1) cs = rawLines cs := by
            refine ih fun piece hpiece => ?_
            cases hrest : fgetsFrom size (room - 1) cs with
            | nil => exact absurd hpiece (hrest ▸ List.not_mem_nil)
            | cons first rest =>
                rw [hrest] at h hpiece
                rcases List.mem_cons.mp hpiece with rfl | hpiece
                · exact (List.mem_cons.mp (h _ List.mem_cons_self)).resolve_left (Ne.symm hnl)
                · exact h piece (List.mem_cons_of_mem _ hpiece)
          rw [hpieces]

/-- A call returns fewer than `size` bytes each time exactly if every line is shorter than that. -/
theorem length_fgetsPieces_lt_iff (hsize : 1 ≤ size) :
    (∀ piece ∈ fgetsPieces size text, piece.length < size) ↔
      ∀ line ∈ rawLines text, line.length < size := by
  rw [← piecesLt_self, ← piecesLt_self]
  exact piecesLt_fgetsFrom_iff hsize (Nat.le_refl _) text

end

end Monitoring.Lib
