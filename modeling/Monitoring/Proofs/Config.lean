import Monitoring.Client.Config
import Monitoring.Proofs.EventBitmap

/-!
# `Monitoring.Proofs.Config`: the divisor a bad configuration leaves

`gather_data` and `get_current_event` divide by EVENTSIZE. Its setting has a default, but the global
has none: EVENTSIZE is 0 until `main` assigns it, and `main` runs the tasks also if an exception
came before the assignment. `configure_eventSize` says which value is in force, and
`dividesSafely_iff` for which configurations the tasks never divide by 0.
-/

set_option autoImplicit false

namespace Monitoring.Client

open Monitoring.Lib

/-! ### The value in force -/

/-- The nodes without a default that `main` asks for before it assigns EVENTSIZE. -/
def requiredPaths : List Bytes :=
  [str "path.data", str "path.log", str "path.config", str "network.server"]

section
variable {γ : Type} {f : Settings → γ}

theorem keeps_getChild (pt : PTree) (path : Bytes) : Keeps f (getChild pt path) := by
  unfold getChild
  split
  · exact Keeps.pure _
  · exact Keeps.throw _

theorem returnsIff_getChild (pt : PTree) (path : Bytes) :
    ReturnsIff (getChild pt path) ((pt.getChildOptional path).isSome = true) := by
  unfold getChild
  cases pt.getChildOptional path with
  | some child => exact fun s => (ReturnsIff.pure child s).trans (by simp)
  | none => exact fun s => (ReturnsIff.throw (ConfigError.badPath path) s).trans (by simp)

theorem Keeps.getChild_bind {β : Type} {pt : PTree} {path : Bytes} {k : PTree → ConfigM β}
    (hk : ∀ a, Keeps f (k a)) : Keeps f (getChild pt path >>= k) :=
  (keeps_getChild pt path).bind hk

theorem Keeps.modify_bind {β : Type} {g : Settings → Settings} {k : PUnit → ConfigM β}
    (hg : ∀ s, f (g s) = f s) (hk : ∀ a, Keeps f (k a)) :
    Keeps f ((modify g : ConfigM PUnit) >>= k) :=
  (Keeps.modify hg).bind hk

theorem ReturnsIff.modify_bind {β : Type} {g : Settings → Settings} {k : PUnit → ConfigM β}
    {q : Prop} (hk : ∀ a, ReturnsIff (k a) q) :
    ReturnsIff ((modify g : ConfigM PUnit) >>= k) q := by
  simpa only [true_and] using (ReturnsIff.modify g).bind hk

end

/-- The globals that only one part assigns. -/
def Settings.late (s : Settings) : Int × Table Bytes (List Bytes) := (s.eventSize, s.scripts2)

/-! The parts before "Settings setup" leave EVENTSIZE and SCRIPTS2 alone. -/

theorem keeps_readPaths (pt : PTree) : Keeps Settings.late (readPaths pt) :=
  Keeps.getChild_bind fun _ => Keeps.modify_bind (fun _ => rfl) fun _ =>
    Keeps.getChild_bind fun _ => Keeps.modify_bind (fun _ => rfl) fun _ =>
      Keeps.modify_bind (fun _ => rfl) fun _ =>
        Keeps.getChild_bind fun _ => Keeps.modify fun _ => rfl

theorem keeps_readNetwork (pt : PTree) : Keeps Settings.late (readNetwork pt) :=
  Keeps.getChild_bind fun _ => Keeps.modify_bind (fun _ => rfl) fun _ =>
    Keeps.modify_bind (fun _ => rfl) fun _ => Keeps.modify fun _ => rfl

theorem keeps_readMessages (pt : PTree) : Keeps Settings.late (readMessages pt) :=
  Keeps.modify_bind (fun _ => rfl) fun _ => Keeps.modify_bind (fun _ => rfl) fun _ =>
    Keeps.modify_bind (fun _ => rfl) fun _ => Keeps.modify_bind (fun _ => rfl) fun _ =>
      Keeps.modify fun _ => rfl

theorem keeps_readSettings (pt : PTree) : Keeps Settings.scripts2 (readSettings pt) :=
  Keeps.modify_bind (fun _ => rfl) fun _ => Keeps.modify_bind (fun _ => rfl) fun _ =>
    Keeps.modify fun _ => rfl

theorem keeps_readScripts (pt : PTree) : Keeps Settings.eventSize (readScripts pt) := by
  refine Keeps.getChild_bind fun list => ?_
  split
  · exact Keeps.modify fun _ => rfl
  · exact Keeps.throw _

/-! The parts before "Settings setup" return exactly if the nodes they ask for are there. -/

/-- The tree has the node. -/
abbrev PTree.Has (pt : PTree) (path : Bytes) : Prop := (pt.getChildOptional path).isSome = true

theorem returnsIff_readPaths (pt : PTree) :
    ReturnsIff (readPaths pt)
      (pt.Has (str "path.data") ∧ pt.Has (str "path.log") ∧ pt.Has (str "path.config")) := by
  refine (returnsIff_getChild pt _).bind fun _ => ReturnsIff.modify_bind fun _ => ?_
  refine (returnsIff_getChild pt _).bind fun _ => ReturnsIff.modify_bind fun _ => ?_
  refine ReturnsIff.modify_bind fun _ => ReturnsIff.congr ?_ (and_iff_left trivial)
  exact (returnsIff_getChild pt _).bind fun _ => ReturnsIff.modify _

theorem returnsIff_readNetwork (pt : PTree) :
    ReturnsIff (readNetwork pt) (pt.Has (str "network.server")) := by
  refine ReturnsIff.congr ?_ (and_iff_left trivial)
  exact (returnsIff_getChild pt _).bind fun _ => ReturnsIff.modify_bind fun _ =>
    ReturnsIff.modify_bind fun _ => ReturnsIff.modify _

theorem returnsIff_readMessages (pt : PTree) : ReturnsIff (readMessages pt) True :=
  ReturnsIff.modify_bind fun _ => ReturnsIff.modify_bind fun _ => ReturnsIff.modify_bind fun _ =>
    ReturnsIff.modify_bind fun _ => ReturnsIff.modify _

theorem returnsIff_readSettings (pt : PTree) : ReturnsIff (readSettings pt) True :=
  ReturnsIff.modify_bind fun _ => ReturnsIff.modify_bind fun _ => ReturnsIff.modify _

theorem setsIf_readSettings (pt : PTree) :
    SetsIf Settings.eventSize (readSettings pt) True (pt.getInt (str "settings.size") 32) :=
  SetsIf.bind_keeps (SetsIf.modify fun _ => rfl) fun _ =>
    Keeps.modify_bind (fun _ => rfl) fun _ => Keeps.modify fun _ => rfl

/-- `main` gets as far as "Settings setup". -/
def ReachesSettings (pt : PTree) : Prop := ∀ path ∈ requiredPaths, pt.Has path

instance (pt : PTree) : Decidable (ReachesSettings pt) :=
  inferInstanceAs (Decidable (∀ path ∈ requiredPaths, pt.Has path))

/-- The value of EVENTSIZE with which the tasks run. -/
theorem configure_eventSize (readXml : Bytes → Option PTree) (file : Option Bytes) :
    (configure readXml file).eventSize =
      match file.bind readXml with
      | none => 0
      | some pt => if ReachesSettings pt then pt.getInt (str "settings.size") 32 else 0 := by
  unfold configure readConfig
  cases file.bind readXml with
  | none => rfl
  | some pt =>
      have h := (SetsIf.bind ((keeps_readPaths pt).comp Prod.fst) (returnsIff_readPaths pt) fun _ =>
        SetsIf.bind ((keeps_readNetwork pt).comp Prod.fst) (returnsIff_readNetwork pt) fun _ =>
          SetsIf.bind ((keeps_readMessages pt).comp Prod.fst) (returnsIff_readMessages pt) fun _ =>
            (setsIf_readSettings pt).bind_keeps fun _ => keeps_readScripts pt) Settings.initial
      refine h.trans (if_congr ?_ rfl rfl)
      simp [ReachesSettings, requiredPaths, and_assoc]

/-! ### The division -/

/-- The statement divides by EVENTSIZE: the start of a cycle, or a request that
`get_current_event` builds a frame for. -/
def Divides (s : GatherState) : ClientEvent → Prop
  | .gather _ => s.pc = .setup
  | .request _ outside => (s.requestFrame outside).isSome = true
  | _ => False

instance (s : GatherState) : (e : ClientEvent) → Decidable (Divides s e)
  | .gather _ => inferInstanceAs (Decidable (_ = _))
  | .request _ _ => inferInstanceAs (Decidable (_ = _))
  | .elapse _ => isFalse id
  | .callHome _ => isFalse id

/-- No division by 0. -/
def DividesSafely (s : GatherState) (e : ClientEvent) : Prop := Divides s e → s.eventSize ≠ 0

instance (s : GatherState) (e : ClientEvent) : Decidable (DividesSafely s e) :=
  inferInstanceAs (Decidable (_ → _))

section
variable {s t : GatherState}

/-- Nothing assigns EVENTSIZE once the tasks run. -/
theorem clientStep_eventSize {e : ClientEvent} (h : clientStep s e = some t) :
    t.eventSize = s.eventSize := by
  cases e with
  | elapse _ | callHome _ =>
      cases h
      rfl
  | gather input => exact (gatherStep_array h ⟨false, 0⟩).1
  | request outcomes outside => exact (requestStep_array h).2.2.2

end

/-- A cycle begins. -/
def firstCycle : List ClientEvent :=
  List.replicate 3 (.gather ⟨[⟨[ch 'a', ch 'n', ch 'n'], true⟩], 1, 0⟩)

/-- Runs divide by the value they start with, and each begins with a division. -/
theorem allSteps_dividesSafely_iff (eventSize programCount : Int) :
    (∀ clock es, AllSteps clientStep DividesSafely es
        (GatherState.begin clock eventSize programCount)) ↔ eventSize ≠ 0 := by
  constructor
  · intro h
    -- the third statement of `gather_data` is the start of the cycle
    exact ((h 0 firstCycle).2 _ rfl).2 _ rfl |>.1 rfl
  · intro hne clock es
    have hstep : ∀ s e t, s.eventSize = eventSize → clientStep s e = some t →
        t.eventSize = eventSize := fun s e t hs ht => (clientStep_eventSize ht).trans hs
    exact allSteps_of_kept hstep (fun s e hs _ => hs ▸ hne) rfl

/-- The tasks never divide by 0, exactly if `main` gets as far as "Settings setup" and the setting
is not 0. -/
theorem dividesSafely_iff (readXml : Bytes → Option PTree) (file : Option Bytes) :
    (∀ clock es, AllSteps clientStep DividesSafely es (runTasks (configure readXml file) clock)) ↔
      ∃ pt, file.bind readXml = some pt ∧ ReachesSettings pt ∧
        pt.getIntOptional (str "settings.size") ≠ some 0 := by
  refine (allSteps_dividesSafely_iff (configure readXml file).eventSize 0).trans ?_
  rw [configure_eventSize]
  cases file.bind readXml with
  | none => simp
  | some pt =>
      dsimp only
      by_cases hreach : ReachesSettings pt
      · rw [if_pos hreach]
        unfold PTree.getInt
        cases hsize : pt.getIntOptional (str "settings.size") with
        | none => simp [hreach, hsize]
        | some n => simp [hreach, hsize]
      · rw [if_neg hreach]
        simp [hreach]

/-- The file cannot be opened. -/
theorem dividesSafely_fails :
    ¬ AllSteps clientStep DividesSafely firstCycle
      (runTasks (configure (fun _ => none) none) 0) := by
  decide

end Monitoring.Client
