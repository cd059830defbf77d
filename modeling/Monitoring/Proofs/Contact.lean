import Monitoring.Contact
import Monitoring.Lib.Run
import Monitoring.Proofs.Distribution
import Monitoring.Proofs.Registry

/-!
# `Monitoring.Proofs.Contact`: how long a machine can be lost

`registered_of_reply` is the server's side: a machine whose call home was answered is on the list
and not on the blacklist. The client's side is about time: where each pass of `call_home_task` takes
only so long and its calls come through, a machine is not lost for longer than CALL_HOME minutes and
two passes, counted from its last contact or from its loss (`contact_regained`). `ContactInv` is
what a step keeps.
-/

set_option autoImplicit false

namespace Monitoring

open Monitoring.Lib Monitoring.Client Monitoring.Server

/-! ### The server -/

section
variable {tables : Tables} {call : ListenCall} {data : Bytes} {fuel : Nat} {h : Handled}

/-- The part of `handle_listen` that sends the list has registered the machine before. -/
theorem registered_of_flag {flag os : Byte} {m : Bytes} (hs : RegistryInv tables)
    (hrun : handleFlag call flag os m fuel tables = some h) (hne : m ≠ [])
    (hreply : h.reply ≠ none) : Registered h.tables m call.sender := by
  obtain ⟨-, hreg⟩ := callHome_spec (m := m) hs call
  have hnone := (callHome_lists (s := tables) (m := m) call).2
  unfold handleFlag at hrun
  split at hrun
  · dsimp only at hrun
    split at hrun
    · rename_i hhome
      obtain ⟨h', hsend, hclose⟩ := Option.map_eq_some_iff.mp hrun
      obtain ⟨hlist, hip, hblack⟩ := sendList_spec hsend
      have htables : h.tables = h'.tables := by
        rw [← hclose]
        split <;> rfl
      rw [htables]
      exact (hreg hhome hne).congr hlist hip hblack
    · cases hrun
      exact absurd hnone hreply
  · cases hrun
    exact absurd rfl hreply

/-- A machine that gets an answer is on the list, and not on the blacklist. -/
theorem registered_of_reply (hs : RegistryInv tables) (hread : call.read = .message data)
    (hne : machineName data ≠ []) (hrun : handleListen call fuel tables = some h)
    (hreply : h.reply ≠ none) : Registered h.tables (machineName data) call.sender := by
  unfold handleListen handleMessage at hrun
  rw [hread] at hrun
  dsimp only at hrun
  split at hrun
  · cases hrun
    exact absurd rfl hreply
  · split at hrun
    · rename_i hm
      have hinv := (refresh_spec call.sender hs hm (call.endpoint 0)).1
      split at hrun
      · exact registered_of_flag hinv hrun hne hreply
      · obtain rfl := Option.some.inj hrun
        exact absurd (refresh_lists _).2 hreply
    · exact registered_of_flag hs hrun hne hreply

theorem monitored_of_registered {m sender : Bytes} (hreg : Registered tables m sender) :
    Monitored tables m :=
  ⟨hreg.mem, by rw [Table.read, hreg.blacklist]; rfl⟩

end

/-! ### The client -/

/-- The answer that `call_home_task` has read. -/
def HomePc.output : HomePc → Option Bytes
  | .answered output => some output
  | _ => none

/-- What is asked of an action: the running pass of `call_home_task` is not older than `limit`
seconds, and its calls are answered. -/
def ContactAction.Prompt (limit : Int) (s : Contact) : ContactAction → Prop
  | .elapse seconds => s.clock + seconds ≤ s.passStart + limit
  | .home => ∀ output ∈ s.pc.output, receivedList output ≠ none
  | .fails => False
  | _ => True

instance (limit : Int) (s : Contact) : (act : ContactAction) → Decidable (act.Prompt limit s)
  | .elapse seconds => inferInstanceAs (Decidable (s.clock + seconds ≤ _))
  | .home => inferInstanceAs (Decidable (∀ output ∈ s.pc.output, receivedList output ≠ none))
  | .fails => isFalse not_false
  | .answer _ _ _ _ | .contacted | .server _ | .restart _ _ => isTrue trivial

/-- By when a machine that is lost should have called home. -/
def Contact.due (s : Contact) (callHome : Int) : Int :=
  max s.lostAt (s.lastServerCommunication + callHome * 60)

/-- What is known of the pass while the machine is lost. A pass that is about to end has found that
it is not time to call, or has called before the loss. -/
def PassInv (callHome limit : Int) (s : Contact) : Prop :=
  match s.pc with
  | .time | .sleeping _ => s.passStart ≤ s.due callHome
  | .test _ | .calling => s.passStart ≤ s.due callHome + limit
  | .answered output => s.passStart ≤ s.due callHome + limit ∧
      (receivedList output ≠ none → s.passStart ≤ s.lostAt)

/-- The registry, the times, and the pass. -/
structure ContactInv (machine : Bytes) (callHome limit : Int) (s : Contact) : Prop where
  registry : RegistryInv s.tables
  contact : s.lastServerCommunication ≤ s.clock
  lost : s.lostAt ≤ s.clock
  start : s.passStart ≤ s.clock
  prompt : s.clock ≤ s.passStart + limit
  time : ∀ currentTime, s.pc = .test currentTime → currentTime = s.passStart
  pass : ¬ Monitored s.tables machine → PassInv callHome limit s

section
variable {machine : Bytes} {callHome limit : Int} {s t : Contact}

theorem ContactInv.limit_nonneg (h : ContactInv machine callHome limit s) : 0 ≤ limit := by
  have hstart := h.start
  have hprompt := h.prompt
  omega

/-- A pass that has begun before the loss. -/
theorem passInv_of_lost (hlimit : 0 ≤ limit) (hlost : s.passStart ≤ s.lostAt) :
    PassInv callHome limit s := by
  have hdue : s.passStart ≤ s.due callHome := hlost.trans (le_max_left _ _)
  unfold PassInv
  split
  · exact hdue
  · exact hdue
  · omega
  · omega
  · exact ⟨by omega, fun _ => hlost⟩

/-- A contact makes the machine due later. -/
theorem PassInv.mono (h : PassInv callHome limit s) (hpc : t.pc = s.pc)
    (hstart : t.passStart = s.passStart) (hlost : t.lostAt = s.lostAt)
    (hlast : s.lastServerCommunication ≤ t.lastServerCommunication) :
    PassInv callHome limit t := by
  have hdue : s.due callHome ≤ t.due callHome := by
    unfold Contact.due
    rw [hlost]
    exact max_le_max_left _ (by omega)
  unfold PassInv at h ⊢
  rw [hpc, hstart, hlost]
  split at h
  · exact h.trans hdue
  · exact h.trans hdue
  · omega
  · omega
  · exact ⟨by omega, h.2⟩

/-- The tables come to another state: if the machine is lost by that, it is lost now. -/
theorem ContactInv.setTables {tables : Tables} (h : ContactInv machine callHome limit s)
    (hregistry : RegistryInv tables) :
    ContactInv machine callHome limit (s.setTables machine tables) where
  registry := hregistry
  contact := h.contact
  lost := by
    unfold Contact.setTables
    dsimp only
    split
    · exact le_refl _
    · exact h.lost
  start := h.start
  prompt := h.prompt
  time := h.time
  pass hlost := by
    by_cases hbefore : Monitored s.tables machine
    · refine passInv_of_lost h.limit_nonneg ?_
      unfold Contact.setTables
      rw [if_pos ⟨hbefore, hlost⟩]
      exact h.start
    · have hsame : (s.setTables machine tables).lostAt = s.lostAt :=
        if_neg fun hnow => hbefore hnow.1
      exact (h.pass hbefore).mono rfl rfl hsame (le_refl _)

theorem contactInv_home (h : ContactInv machine callHome limit s)
    (hproper : ContactAction.Prompt limit s .home) (hstep : s.home callHome = some t) :
    ContactInv machine callHome limit t := by
  obtain ⟨hregistry, hcontact, hlost, hstart, hprompt, htime, hpass⟩ := h
  unfold Contact.home at hstep
  unfold PassInv Contact.due at hpass
  split at hstep
  · rename_i hpc
    cases hstep
    rw [hpc] at hpass
    refine ⟨hregistry, hcontact, hlost, le_refl _, ?_, ?_, fun hnot => ?_⟩
    · dsimp only
      omega
    · rintro _ ⟨⟩
      rfl
    · have hdue := hpass hnot
      unfold PassInv Contact.due
      dsimp only at hdue ⊢
      omega
  · rename_i currentTime hpc
    have hnow := htime currentTime hpc
    rw [hpc] at hpass
    by_cases hcall : currentTime - s.lastServerCommunication > callHome * 60 ∨
        s.neverContactedServer = true
    · rw [if_pos hcall] at hstep
      cases hstep
      exact ⟨hregistry, hcontact, hlost, hstart, hprompt, by rintro _ ⟨⟩, hpass⟩
    · -- it is not time to call
      rw [if_neg hcall] at hstep
      cases hstep
      rw [not_or] at hcall
      refine ⟨hregistry, hcontact, hlost, hstart, hprompt, by rintro _ ⟨⟩, fun _ => ?_⟩
      unfold PassInv Contact.due
      dsimp only
      omega
  · cases hstep
  · rename_i output hpc
    have hlist := hproper output (by rw [hpc]; rfl)
    rw [hpc] at hpass
    cases hreceived : receivedList output with
    | none => exact absurd hreceived hlist
    | some list =>
        rw [hreceived] at hstep
        cases hstep
        refine ⟨hregistry, le_refl _, hlost, hstart, hprompt, by rintro _ ⟨⟩, fun hnot => ?_⟩
        have hbefore := (hpass hnot).2 hlist
        unfold PassInv Contact.due
        dsimp only at hbefore ⊢
        omega
  · rename_i wake hpc
    obtain ⟨-, hstep⟩ := Option.ite_none_right_eq_some.mp hstep
    cases hstep
    rw [hpc] at hpass
    exact ⟨hregistry, hcontact, hlost, hstart, hprompt, by rintro _ ⟨⟩, hpass⟩

/-- The server has handled the call: if the client gets anything, then it is monitored. -/
theorem contactInv_answer {call : ListenCall} {fuel : Nat} {file : Bytes} {chunks : List Bytes}
    (h : ContactInv machine callHome limit s) (hname : machineName (homeMessage machine) = machine)
    (hne : machine ≠ []) (hstep : s.answer machine call fuel file chunks = some t) :
    ContactInv machine callHome limit t := by
  unfold Contact.answer at hstep
  split at hstep
  swap
  · cases hstep
  rename_i hpc
  obtain ⟨handled, hlisten, hstep⟩ := Option.bind_eq_some_iff.mp hstep
  obtain ⟨⟨hchunks, hpieces⟩, hstep⟩ := Option.ite_none_right_eq_some.mp hstep
  cases hstep
  have hset := h.setTables (handleListen_inv h.registry hlisten)
  refine ⟨hset.registry, hset.contact, hset.lost, hset.start, hset.prompt, by rintro _ ⟨⟩, ?_⟩
  intro hnot
  have hcalling := hset.pass hnot
  unfold PassInv at hcalling ⊢
  have hpc' : (s.setTables machine handled.tables).pc = .calling := hpc
  rw [hpc'] at hcalling
  refine ⟨hcalling, fun hlist => absurd ?_ hnot⟩
  have hreply : handled.reply ≠ none := by
    intro hnone
    apply hlist
    -- nothing was sent, so nothing is read
    rw [hnone] at hchunks
    have hempty : chunks = [] := by
      refine List.eq_nil_iff_forall_not_mem.mpr fun chunk hchunk => hpieces chunk hchunk ?_
      exact List.flatten_eq_nil_iff.mp hchunks chunk hchunk
    rw [hempty]
    rfl
  have hread : ({ call with read := .message (homeMessage machine) } : ListenCall).read
      = .message (homeMessage machine) := rfl
  have hregistered := registered_of_reply h.registry hread (by rw [hname]; exact hne) hlisten hreply
  rw [hname] at hregistered
  exact monitored_of_registered hregistered

/-- Every prompt step keeps the invariant. -/
theorem contactInv_step {act : ContactAction} (h : ContactInv machine callHome limit s)
    (hname : machineName (homeMessage machine) = machine) (hne : machine ≠ [])
    (hprompt : act.Prompt limit s) (hstep : contactStep machine callHome s act = some t) :
    ContactInv machine callHome limit t := by
  cases act with
  | elapse seconds =>
      cases hstep
      have hlater : s.clock ≤ s.clock + seconds := by omega
      exact ⟨h.registry, h.contact.trans hlater, h.lost.trans hlater, h.start.trans hlater, hprompt,
        h.time, h.pass⟩
  | home => exact contactInv_home h hprompt hstep
  | answer call fuel file chunks => exact contactInv_answer h hname hne hstep
  | fails => exact absurd hprompt not_false
  | contacted =>
      cases hstep
      exact ⟨h.registry, le_refl _, h.lost, h.start, h.prompt, h.time,
        fun hnot => (h.pass hnot).mono rfl rfl rfl h.contact⟩
  | server e =>
      obtain ⟨tables, htables, rfl⟩ := Option.map_eq_some_iff.mp hstep
      exact h.setTables (execute_inv h.registry htables)
  | restart windowsList linuxList =>
      cases hstep
      exact h.setTables (registryInv_empty windowsList linuxList)

theorem contactInv_start {clock : Int} {tables : Tables} (hclock : 0 ≤ clock) (hlimit : 0 ≤ limit)
    (hregistry : RegistryInv tables) :
    ContactInv machine callHome limit (Contact.start clock tables) where
  registry := hregistry
  contact := hclock
  lost := le_refl _
  start := le_refl _
  prompt := by
    change clock ≤ clock + limit
    omega
  time := by rintro _ ⟨⟩
  pass _ := le_max_left _ _

end

/-- A server that hands out one program. -/
def oneProgramTables : Tables := Tables.empty ∅ (Table.set ∅ 1 (str "a"))

/-- The client calls home and gets its list. Then it does not answer, and is blacklisted. -/
def calledAndLost : List ContactAction :=
  [.home, .home, .answer (callHomeOf (str "10.0.0.1")) 3 [] [str ",", str "a"], .home,
    .server (.gather (str "pc") .timedOut 0), .elapse 2]

end Monitoring
