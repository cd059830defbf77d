import Monitoring.Pipeline
import Monitoring.Proofs.EventStore
import Monitoring.Proofs.Gather

/-!
# `Monitoring.Proofs.Pipeline`: no minute is lost between a client and the database

The steps of the three programs, put together. `exchange_rows` is about one exchange: what the
server decodes from the chunks are the rows of frames that the client has built, and of every frame
that was in EVENTS. `PipelineInv` follows the rows from there to the table `event`; `Delivered`
follows a frame from EVENTS on. So every row of the table comes from a frame (`pipeline_origin`),
and where nothing fails, and no frame is pushed in the middle of an exchange, every frame comes to
the table (`pipeline_delivers`).
-/

set_option autoImplicit false

namespace Monitoring

open Monitoring.Lib Monitoring.Client Monitoring.Server

variable {cs : Charset} {machine : Bytes} {x : Exchange}

/-! ### An exchange -/

/-- The writes of an answer are taken completely, and the server can measure what comes. -/
def Complete (wire : List Sent) : Prop :=
  (∀ w ∈ wire, w.event.length ≤ w.outcome.sent) ∧ (wire.flatMap Sent.event).length < 2 ^ 31

instance (wire : List Sent) : Decidable (Complete wire) := inferInstanceAs (Decidable (_ ∧ _))

/-- The rows of a frame that fits the format. -/
def builtRows (machine : Bytes) (b : {b : BuiltFrame // b.WellFormed}) : List EVENT :=
  frameRows machine (b.1.toFrame b.2)

section
variable {s client : GatherState} {wire : List Sent} {box : Outbox}

theorem arrives_complete (h : Complete wire) : arrives wire = wire.flatMap Sent.event := by
  unfold arrives
  have htake : ∀ w ∈ wire, w.event.take w.outcome.sent = w.event :=
    fun w hw => List.take_of_length_le (h.1 w hw)
  rw [List.flatMap_def, List.flatMap_def, List.map_congr_left htake]

/-- What is written of frames that fit the format is a list of such frames. -/
theorem frames_of_wire {P : BuiltFrame → Prop}
    (h : ∀ w ∈ wire, w.event = [] ∨ ∃ b, P b ∧ b.WellFormed ∧ w.event = b.bytes) :
    ∃ bs : List {b : BuiltFrame // b.WellFormed}, (∀ b ∈ bs, P b.1) ∧
      wire.flatMap Sent.event = concatFrames (bs.map fun b => b.1.toFrame b.2) ∧
      ∀ w ∈ wire, w.event = [] ∨ ∃ b ∈ bs, w.event = b.1.bytes := by
  induction wire with
  | nil => exact ⟨[], by rintro _ ⟨⟩, rfl, by rintro _ ⟨⟩⟩
  | cons w wire ih =>
      obtain ⟨hw, hwire⟩ := List.forall_mem_cons.mp h
      obtain ⟨bs, hP, hflat, hthere⟩ := ih hwire
      rcases hw with hnil | ⟨b, hb, hwell, hbytes⟩
      · refine ⟨bs, hP, ?_, List.forall_mem_cons.mpr ⟨Or.inl hnil, hthere⟩⟩
        rw [List.flatMap_cons, hnil, List.nil_append, hflat]
      · refine ⟨⟨b, hwell⟩ :: bs, List.forall_mem_cons.mpr ⟨hb, hP⟩, ?_, ?_⟩
        · rw [List.flatMap_cons, hbytes, hflat]
          rfl
        · refine List.forall_mem_cons.mpr ⟨Or.inr ⟨_, List.mem_cons_self .., hbytes⟩, ?_⟩
          exact fun w hw => (hthere w hw).imp_right fun ⟨b, hb, hbytes⟩ =>
            ⟨b, List.mem_cons_of_mem _ hb, hbytes⟩

/-- The decoder leaves one state, with any fuel that is enough. -/
theorem decodeResponse_unique {env : ParseEnv} {memory : Int → Byte} {rBuffer : Bytes} {n n' : Nat}
    {st p p' : ParseState} (h : decodeResponse env memory rBuffer machine n st = some p)
    (h' : decodeResponse env memory rBuffer machine n' st = some p') : p = p' := by
  unfold decodeResponse parseEventBlock at h h'
  split at h
  · rename_i hflag
    rw [if_pos hflag] at h'
    split at h
    · rename_i hzero
      rw [if_pos hzero] at h'
      cases h
      cases h'
      rfl
    · rename_i hblocks
      rw [if_neg hblocks] at h'
      obtain ⟨l, hl, rfl⟩ := Option.map_eq_some_iff.mp h
      obtain ⟨l', hl', rfl⟩ := Option.map_eq_some_iff.mp h'
      rw [whileFuel_unique hl hl']
  · rename_i hflag
    rw [if_neg hflag] at h'
    cases h
    cases h'
    rfl

/-- What the server makes of such a response. -/
theorem decode_frames {bs : List {b : BuiltFrame // b.WellFormed}} {tables t : Tables}
    {env : ParseEnv} {memory : Int → Byte} {fuel : Nat}
    (hlen : (concatFrames (bs.map fun b => b.1.toFrame b.2)).length < 2 ^ 31)
    (h : tables.decode machine (concatFrames (bs.map fun b => b.1.toFrame b.2)) env memory fuel
      = some t) : t.eventsToUpload = tables.eventsToUpload ++ bs.flatMap (builtRows machine) := by
  obtain ⟨p, hp, rfl⟩ := Option.map_eq_some_iff.mp h
  cases bs with
  | nil =>
      cases hp
      exact (List.append_nil _).symm
  | cons b bs =>
      have hblocks : ∀ f ∈ (b :: bs).map (fun b => b.1.toFrame b.2), f.words ≠ [] := by
        intro f hf
        obtain ⟨b, -, rfl⟩ := List.mem_map.mp hf
        exact List.length_pos_iff.mp b.2.words_pos
      have hqueues : Queues
          (fun fuel => decodeResponse env memory
            (concatFrames ((b :: bs).map fun b => b.1.toFrame b.2)) machine fuel
              ⟨tables.eventsToUpload, tables.mapMnameStatus, 0⟩)
          ⟨tables.eventsToUpload, tables.mapMnameStatus, 0⟩
          (((b :: bs).map fun b => b.1.toFrame b.2).flatMap (frameRows machine)) :=
        queues_of_frames (List.cons_ne_nil _ _) hblocks hlen
      obtain ⟨n, st, hst, hrows⟩ := hqueues
      obtain rfl := decodeResponse_unique hp (hst n (Nat.le_refl n))
      rw [List.flatMap_map] at hrows
      exact hrows

/-- A client that is not logged in answers with an '8' and keeps its frames. Otherwise the frames
that it puts on the wire were built by it, and all that was in EVENTS is among them. -/
theorem answer_frames (hanswer : clientAnswer s x = some box)
    (hstep : requestStep x.outcomes x.outside s = some client) (hsourced : Sourced s)
    (hwell : ∀ b ∈ client.built, b.WellFormed) :
    (box.wire.flatMap Sent.event = [ch '8'] ∧ client.events = s.events) ∨
    ((∀ w ∈ box.wire, w.event = [] ∨ ∃ b, b ∈ client.built ∧ b.WellFormed ∧ w.event = b.bytes) ∧
      ∀ line ∈ s.events, line ≠ [] ∧ ∃ w ∈ box.wire, w.event = line) := by
  have hsourced' := sourced_request hsourced hstep
  obtain ⟨q, hq, hclient⟩ := requestStep_eq hstep
  obtain rfl : q = box := Option.some.inj (hq.symm.trans hanswer)
  have hsub : s.built ⊆ client.built := by
    rw [hclient]
    exact List.subset_append_left _ _
  have hnul {b : BuiltFrame} (hb : b ∈ client.built) : 0 ∉ b.bytes :=
    Frame.bytes_nul (b.toFrame (hwell b hb))
  cases hlogged : s.loggedIn with
  | false =>
      rw [hlogged] at hq
      cases hq
      exact Or.inl ⟨rfl, by rw [hclient]; rfl⟩
  | true =>
      rw [hlogged] at hq
      obtain ⟨-, hwire⟩ := answerRequest_linux rfl hq
      refine Or.inr ⟨fun w hw => ?_, fun line hline => ?_⟩
      · obtain ⟨hevent, hline | ⟨-, hline⟩⟩ := hwire w hw
        · obtain ⟨b, hb, hbytes⟩ := hsourced.events w.line hline
          rw [hevent, hbytes, cstr_eq_self (hnul (hsub hb))]
          exact Or.inr ⟨b, hsub hb, hwell b (hsub hb), rfl⟩
        · rw [hevent, hline]
          cases hframe : s.requestFrame x.outside with
          | none => exact Or.inl rfl
          | some b =>
              have hb : b ∈ client.built := by
                rw [hclient, hframe]
                exact List.mem_append_right _ (List.mem_singleton_self b)
              exact Or.inr ⟨b, hb, hwell b hb, cstr_eq_self (hnul hb)⟩
      · obtain ⟨b, hb, rfl⟩ := hsourced.events line hline
        have hne : b.bytes ≠ [] := by
          intro hnil
          have hlen := Frame.length_bytes (b.toFrame (hwell b (hsub hb)))
          rw [show (b.toFrame (hwell b (hsub hb))).bytes = [] from hnil] at hlen
          simp only [List.length_nil] at hlen
          omega
        have hpending : pendingEvents .linux s.events none ≠ [] := List.ne_nil_of_mem hline
        have hreq : (⟨true, ((s.requestFrame x.outside).map BuiltFrame.bytes).getD [],
            x.outcomes⟩ : Request).loggedIn = true := rfl
        obtain ⟨q', hq', -, hwrites⟩ := answerRequest_loggedIn hreq hpending
        obtain rfl : q' = q := Option.some.inj (hq'.symm.trans hq)
        have hmem : b.bytes ∈ drainOrder .linux s.events none :=
          mem_drainOrder.mpr ⟨hline, hne⟩
        obtain ⟨k, hk⟩ := List.mem_iff_getElem?.mp hmem
        refine ⟨hne, ⟨b.bytes, cstr b.bytes, x.outcomes k⟩, ?_, cstr_eq_self (hnul (hsub hb))⟩
        rw [hwrites]
        exact (mem_writesFrom _).mpr ⟨k, b.bytes, hk, rfl⟩

end

/-- What is asked of an exchange: the frame that is built for it fits the format, and nothing is cut
off. -/
structure ProperExchange (s : GatherState) (x : Exchange) : Prop where
  builds : ∀ b ∈ s.requestFrame x.outside, b.WellFormed
  complete : ∀ box, clientAnswer s x = some box → Complete box.wire

instance (b : BuiltFrame) : Decidable b.WellFormed :=
  decidable_of_iff (0 < b.words.length ∧ b.words.length ≤ 9 ∧ b.user.length ≤ 255 ∧ 0 ∉ b.user ∧
      1000000000 ≤ b.clock - Client.tmSec b.clock ∧ b.clock < 2147483648)
    ⟨fun ⟨h1, h2, h3, h4, h5, h6⟩ => ⟨h1, h2, h3, h4, h5, h6⟩,
      fun ⟨h1, h2, h3, h4, h5, h6⟩ => ⟨h1, h2, h3, h4, h5, h6⟩⟩

instance (s : GatherState) (x : Exchange) : Decidable (ProperExchange s x) :=
  decidable_of_iff ((∀ b ∈ s.requestFrame x.outside, b.WellFormed) ∧
      ∀ box ∈ clientAnswer s x, Complete box.wire)
    ⟨fun ⟨hbuilds, hcomplete⟩ => ⟨hbuilds, hcomplete⟩, fun ⟨hbuilds, hcomplete⟩ =>
      ⟨hbuilds, hcomplete⟩⟩

/-- What `handle_gather` queues for a machine that answers. -/
theorem handleGather_rows {tables t : Tables} {r : Bytes} {env : ParseEnv} {memory : Int → Byte}
    {fuel : Nat} (hopen : ¬ 0 < tables.blacklist.read machine 0)
    (h : handleGather machine (.response r env memory) fuel tables = some t) :
    ∃ u : Tables, u.eventsToUpload = tables.eventsToUpload ∧
      u.decode machine r env memory fuel = some t := by
  unfold handleGather at h
  have hread : (tables.blacklist.touch machine 0).read machine 0
      = tables.blacklist.read machine 0 := Table.read_touch_self _ _ _ _
  simp only [hread] at h
  rw [if_neg hopen] at h
  split at h
  · cases h
  · refine ⟨_, ?_, h⟩
    unfold Tables.noteResponse
    split
    · rfl
    · split <;> rfl

section
variable {s t : Pipeline}

/-- An exchange: the client has taken its step, and the server has decoded rows of frames that the
client has built. Every frame that was in EVENTS is among them, or stays there. -/
theorem exchange_rows (hsourced : Sourced (s.clients machine))
    (hwell : ∀ b ∈ (s.clients machine).built, b.WellFormed)
    (hproper : ProperExchange (s.clients machine) x) (h : s.exchange machine x = some t) :
    ∃ client, requestStep x.outcomes x.outside (s.clients machine) = some client ∧
      t.clients = Function.update s.clients machine client ∧ t.uploader = s.uploader ∧
      t.stored = s.stored ∧ ∃ bs : List {b : BuiltFrame // b.WellFormed},
        (∀ b ∈ bs, b.1 ∈ client.built) ∧
        t.decoded = s.decoded ++ bs.flatMap (builtRows machine) ∧
        ∀ line ∈ (s.clients machine).events, line ∈ client.events ∨ ∃ b ∈ bs, line = b.1.bytes := by
  unfold Pipeline.exchange at h
  split at h
  swap
  · cases h
  rename_i hasked
  obtain ⟨box, hanswer, h⟩ := Option.bind_eq_some_iff.mp h
  split at h
  swap
  · cases h
  rename_i hchunks
  obtain ⟨client, hstep, h⟩ := Option.bind_eq_some_iff.mp h
  obtain ⟨tables, htables, rfl⟩ := Option.map_eq_some_iff.mp h
  refine ⟨client, hstep, rfl, rfl, rfl, ?_⟩
  have hcomplete := hproper.complete box hanswer
  have hwell' : ∀ b ∈ client.built, b.WellFormed := by
    obtain ⟨-, hbuilt, -⟩ := requestStep_frames hstep
    intro b hb
    rw [hbuilt, List.mem_append, Option.mem_toList] at hb
    exact hb.elim (hwell b) (hproper.builds b)
  have hopen : ¬ 0 < ({ s.tables with eventsToUpload := [] } : Tables).blacklist.read machine 0 :=
    hasked.2
  obtain ⟨u, hqueue, hdecode⟩ := handleGather_rows hopen htables
  have harrives : x.chunks.flatten = box.wire.flatMap Sent.event :=
    hchunks.1.trans (arrives_complete hcomplete)
  -- a stream without NULs is read as it is
  have htext (hnul : 0 ∉ x.chunks.flatten) :
      (gatherResponse x.response x.chunks).text = box.wire.flatMap Sent.event := by
    unfold gatherResponse
    rw [readAll_text hchunks.2 fun chunk hchunk hzero =>
      hnul (List.mem_flatten_of_mem hchunk hzero), ← harrives]
    rfl
  rcases answer_frames hanswer hstep hsourced hwell' with ⟨hlogout, hstays⟩ | ⟨hframes, hsent⟩
  · refine ⟨[], by rintro _ ⟨⟩, ?_, fun line hline => Or.inl (hstays ▸ hline)⟩
    rw [htext (by rw [harrives, hlogout]; decide), hlogout] at hdecode
    cases hdecode
    exact congrArg (s.decoded ++ ·) hqueue
  · obtain ⟨bs, hbuilt, hflat, hthere⟩ := frames_of_wire hframes
    refine ⟨bs, hbuilt, ?_, fun line hline => Or.inr ?_⟩
    · rw [htext (by rw [harrives, hflat]; exact zero_not_mem_concatFrames _), hflat] at hdecode
      have hlen := hcomplete.2
      rw [hflat] at hlen
      have hrows := decode_frames hlen hdecode
      rw [hqueue, List.nil_append] at hrows
      exact congrArg (s.decoded ++ ·) hrows
    · obtain ⟨hne, w, hw, rfl⟩ := hsent line hline
      exact (hthere w hw).resolve_left hne

end

/-! ### The rows on their way -/

/-- The column `user_name` keeps the name, and it stands for itself in a statement. -/
def UserFits (cs : Charset) (user : Bytes) : Prop :=
  Plain user ∧ cs.weight (cs.userName user) = cs.weight user

/-- The machine has a row, and its name stands for itself in a statement. -/
def MachineKnown (cs : Charset) (db : EventDb) (machine : Bytes) : Prop :=
  Plain machine ∧ ∃ row ∈ db.machine, cs.weight row.name = cs.weight machine

instance (cs : Charset) (user : Bytes) : Decidable (UserFits cs user) :=
  inferInstanceAs (Decidable (_ ∧ _))

instance (cs : Charset) (db : EventDb) (machine : Bytes) : Decidable (MachineKnown cs db machine) :=
  inferInstanceAs (Decidable (_ ∧ _))

/-- What is asked of an action: the frames that are built fit the format, and the users and machines
of the answers fit the tables; nothing of an answer is cut off; and a user that is inserted can be
looked up. -/
def PipelineAction.Proper (cs : Charset) (s : Pipeline) : PipelineAction → Prop
  | .client machine e => ∀ b ∈ (s.clients machine).builds e, b.WellFormed ∧ UserFits cs b.user
  | .exchange machine x => ProperExchange (s.clients machine) x ∧
      (∀ b ∈ (s.clients machine).requestFrame x.outside, UserFits cs b.user) ∧
      MachineKnown cs s.uploader.db machine
  | .upload act => act.Proper cs s.uploader
  | _ => True

instance (cs : Charset) (s : Pipeline) :
    (act : PipelineAction) → Decidable (act.Proper cs s)
  | .client machine e =>
      inferInstanceAs (Decidable (∀ b ∈ (s.clients machine).builds e, b.WellFormed ∧ _))
  | .exchange machine x => inferInstanceAs (Decidable (ProperExchange (s.clients machine) x ∧
      (∀ b ∈ (s.clients machine).requestFrame x.outside, UserFits cs b.user) ∧ _))
  | .upload act => inferInstanceAs (Decidable (act.Proper cs s.uploader))
  | .listen _ _ | .fails _ _ | .queue _ => isTrue trivial

/-- The row is one of a frame that a client has built. -/
def FromFrame (s : Pipeline) (e : EVENT) : Prop :=
  ∃ machine, ∃ b : {b : BuiltFrame // b.WellFormed},
    b.1 ∈ (s.clients machine).built ∧ e ∈ builtRows machine b

/-- Frames fit and have their sources, the uploader does what it should, and every row on its way is
one of a frame. -/
structure PipelineInv (cs : Charset) (before : EventDb) (s : Pipeline) : Prop where
  sourced : ∀ machine, Sourced (s.clients machine)
  built : ∀ machine, ∀ b ∈ (s.clients machine).built, b.WellFormed ∧ UserFits cs b.user
  uploader : UploadedInv cs before s.uploader
  decoded : ∀ e ∈ s.decoded, Uploadable cs s.uploader.db e
  origin : ∀ e, e ∈ s.decoded ∨ e ∈ s.uploader.events → FromFrame s e

section
variable {s t : Pipeline} {before : EventDb}

theorem FromFrame.mono {e : EVENT} (h : FromFrame s e)
    (hbuilt : ∀ machine, (s.clients machine).built ⊆ (t.clients machine).built) : FromFrame t e :=
  h.imp fun machine ⟨b, hb, he⟩ => ⟨b, hbuilt machine hb, he⟩

/-- A client that goes on keeps what it has built. -/
theorem built_subset {client : GatherState} {e : ClientEvent}
    (hstep : clientStep (s.clients machine) e = some client) (machine' : Bytes) :
    (s.clients machine').built ⊆ ((s.setClient machine client).clients machine').built := by
  unfold Pipeline.setClient
  dsimp only
  by_cases heq : machine' = machine
  · subst heq
    rw [Function.update_self, clientStep_built hstep]
    exact List.subset_append_left _ _
  · rw [Function.update_of_ne heq]
    exact List.Subset.refl _

/-- The rows of a frame name the machine and the user. -/
theorem names_of_builtRows {b : {b : BuiltFrame // b.WellFormed}} {e : EVENT}
    (he : e ∈ builtRows machine b) : e.machine = machine ∧ e.user = b.1.user := by
  obtain ⟨i, rfl⟩ := exists_frameRow he
  exact ⟨rfl, rfl⟩

/-- A client takes a step. -/
theorem pipelineInv_setClient {client : GatherState} {e : ClientEvent}
    (h : PipelineInv cs before s) (hstep : clientStep (s.clients machine) e = some client)
    (hbuilds : ∀ b ∈ (s.clients machine).builds e, b.WellFormed ∧ UserFits cs b.user) :
    PipelineInv cs before (s.setClient machine client) where
  sourced machine' := by
    unfold Pipeline.setClient
    dsimp only
    by_cases heq : machine' = machine
    · subst heq
      rw [Function.update_self]
      exact sourced_step (h.sourced machine') hstep
    · rw [Function.update_of_ne heq]
      exact h.sourced machine'
  built machine' := by
    unfold Pipeline.setClient
    dsimp only
    by_cases heq : machine' = machine
    · subst heq
      rw [Function.update_self, clientStep_built hstep]
      intro b hb
      rw [List.mem_append, Option.mem_toList] at hb
      exact hb.elim (h.built machine' b) (hbuilds b)
    · rw [Function.update_of_ne heq]
      exact h.built machine'
  uploader := h.uploader
  decoded := h.decoded
  origin e he := (h.origin e he).mono (built_subset hstep)

/-- Only the clients, the rows, and what became of them matter. -/
theorem PipelineInv.congr (h : PipelineInv cs before s) (hclients : t.clients = s.clients)
    (huploader : t.uploader = s.uploader) (hdecoded : t.decoded = s.decoded) :
    PipelineInv cs before t where
  sourced := by rw [hclients]; exact h.sourced
  built := by rw [hclients]; exact h.built
  uploader := by rw [huploader]; exact h.uploader
  decoded := by rw [huploader, hdecoded]; exact h.decoded
  origin e he := by
    rw [huploader, hdecoded] at he
    refine (h.origin e he).mono fun machine => ?_
    rw [hclients]
    exact List.Subset.refl _

theorem pipelineInv_exchange (h : PipelineInv cs before s)
    (hproper : PipelineAction.Proper cs s (.exchange machine x))
    (hstep : s.exchange machine x = some t) : PipelineInv cs before t := by
  obtain ⟨hexchange, husers, hknown⟩ := hproper
  obtain ⟨client, hclient, hclients, huploader, -, bs, hbuilt, hdecoded, -⟩ :=
    exchange_rows (h.sourced machine) (fun b hb => (h.built machine b hb).1) hexchange hstep
  have hstep' : clientStep (s.clients machine) (.request x.outcomes x.outside) = some client :=
    hclient
  have hset : PipelineInv cs before (s.setClient machine client) :=
    pipelineInv_setClient h hstep' fun b hb => ⟨hexchange.builds b hb, husers b hb⟩
  have hrows : ∀ e ∈ bs.flatMap (builtRows machine), ∃ b ∈ bs, e ∈ builtRows machine b := by
    intro e he
    exact List.mem_flatMap.mp he
  have hself : (Function.update s.clients machine client) machine = client :=
    Function.update_self ..
  refine ⟨?_, ?_, ?_, fun e he => ?_, fun e he => ?_⟩
  · rw [hclients]
    exact hset.sourced
  · rw [hclients]
    exact hset.built
  · rw [huploader]
    exact h.uploader
  · rw [huploader]
    rw [hdecoded] at he
    rcases List.mem_append.mp he with he | he
    · exact h.decoded e he
    · obtain ⟨b, hb, hrow⟩ := hrows e he
      obtain ⟨hmachine, huser⟩ := names_of_builtRows hrow
      have hfits := (hset.built machine b.1 (by
        change b.1 ∈ ((Function.update s.clients machine client) machine).built
        rw [hself]
        exact hbuilt b hb)).2
      rw [Uploadable, huser, hmachine]
      exact ⟨hfits.1, hfits.2, hknown⟩
  · rw [huploader, hdecoded, List.mem_append] at he
    have hold (he : e ∈ s.decoded ∨ e ∈ s.uploader.events) : FromFrame t e :=
      (hset.origin e he).mono fun machine' => by rw [hclients]; exact List.Subset.refl _
    rcases he with (he | he) | he
    · exact hold (Or.inl he)
    · obtain ⟨b, hb, hrow⟩ := hrows e he
      refine ⟨machine, b, ?_, hrow⟩
      rw [hclients, hself]
      exact hbuilt b hb
    · exact hold (Or.inr he)

theorem uploadable_step {up up' : Uploader} {act : UploaderAction} {e : EVENT}
    (h : Uploadable cs up.db e) (hstep : uploaderStep cs up act = some up') :
    Uploadable cs up'.db e := h.mono (events_subset_step hstep).2

theorem pipelineInv_upload {act : UploaderAction} {uploader : Uploader}
    (h : PipelineInv cs before s) (hproper : act.Proper cs s.uploader)
    (hpush : act.pushed = none) (hstep : uploaderStep cs s.uploader act = some uploader) :
    PipelineInv cs before { s with uploader := uploader } where
  sourced := h.sourced
  built := h.built
  uploader := uploadedInv_step h.uploader hproper hstep
  decoded e he := uploadable_step (h.decoded e he) hstep
  origin e he := by
    refine h.origin e (he.imp_right fun he => ?_)
    have hsub := (events_subset_step hstep).1 he
    rwa [hpush, Option.toList_none, List.append_nil] at hsub

theorem pipelineInv_queue {i : Nat} {e : EVENT} {uploader : Uploader}
    (h : PipelineInv cs before s) (hi : s.decoded[i]? = some e)
    (hstep : uploaderStep cs s.uploader (.push e) = some uploader) :
    PipelineInv cs before { s with decoded := s.decoded.eraseIdx i, uploader := uploader } where
  sourced := h.sourced
  built := h.built
  uploader := by
    have hproper : UploaderAction.Proper cs s.uploader (.push e) :=
      h.decoded e (List.mem_of_getElem? hi)
    exact uploadedInv_step h.uploader hproper hstep
  decoded x hx := uploadable_step (h.decoded x (List.mem_of_mem_eraseIdx hx)) hstep
  origin x hx := by
    rcases hx with hx | hx
    · exact h.origin x (Or.inl (List.mem_of_mem_eraseIdx hx))
    · rcases List.mem_append.mp ((events_subset_step hstep).1 hx) with hx | hx
      · exact h.origin x (Or.inr hx)
      · obtain rfl := List.mem_singleton.mp hx
        exact h.origin x (Or.inl (List.mem_of_getElem? hi))

/-- Every proper step keeps the invariant. -/
theorem pipelineInv_step {act : PipelineAction} (h : PipelineInv cs before s)
    (hproper : act.Proper cs s) (hstep : pipelineStep cs s act = some t) :
    PipelineInv cs before t := by
  cases act with
  | client machine e =>
      obtain ⟨client, hclient, rfl⟩ := Option.map_eq_some_iff.mp hstep
      exact (pipelineInv_setClient h hclient hproper).congr rfl rfl rfl
  | listen call fuel =>
      obtain ⟨handled, -, rfl⟩ := Option.map_eq_some_iff.mp hstep
      exact h.congr rfl rfl rfl
  | exchange machine x => exact pipelineInv_exchange h hproper hstep
  | fails machine outcome =>
      cases outcome with
      | response rBuffer env memory => cases hstep
      | _ =>
          simp only [pipelineStep] at hstep
          split at hstep
          · obtain ⟨tables, -, rfl⟩ := Option.map_eq_some_iff.mp hstep
            exact h.congr rfl rfl rfl
          · cases hstep
  | queue i =>
      obtain ⟨e, hi, he⟩ := Option.bind_eq_some_iff.mp hstep
      obtain ⟨uploader, hup, rfl⟩ := Option.map_eq_some_iff.mp he
      exact pipelineInv_queue h hi hup
  | upload act =>
      have hact : act.Proper cs s.uploader := hproper
      cases act with
      | push e => cases hstep
      | _ =>
          simp only [pipelineStep] at hstep
          obtain ⟨uploader, hup, rfl⟩ := Option.map_eq_some_iff.mp hstep
          exact pipelineInv_upload h hact rfl hup

theorem pipelineInv_start {clients : Bytes → GatherState} {tables : Tables} (hdb : before.Sound cs)
    (hclients : ∀ machine, ∃ clock eventSize programCount,
      clients machine = GatherState.begin clock eventSize programCount) :
    PipelineInv cs before (Pipeline.start clients tables before) where
  sourced machine := by
    obtain ⟨clock, eventSize, programCount, hclient⟩ := hclients machine
    change Sourced (clients machine)
    rw [hclient]
    exact sourced_begin clock eventSize programCount
  built machine b hb := by
    obtain ⟨clock, eventSize, programCount, hclient⟩ := hclients machine
    change b ∈ (clients machine).built at hb
    rw [hclient] at hb
    cases hb
  uploader := uploadedInv_start hdb
  decoded := by rintro _ ⟨⟩
  origin := by
    rintro e (he | he) <;> cases he

end

/-! ### The rows of a frame -/

/-- What block `i` of a frame is in the table. -/
def builtLogRow (cs : Charset) (machine : Bytes) (b : BuiltFrame) (i : Nat) : LogRow where
  timestamp := b.minute
  machine := some (cs.weight machine)
  user := some (cs.weight b.user)
  dataOffset := i + 1
  data := (b.words.getD i 0).toNat

section
variable {b : {b : BuiltFrame // b.WellFormed}} {e : EVENT} {i : Nat}

theorem unsignedColumn_of_lt {bits n : Nat} (h : n < 2 ^ bits) : unsignedColumn bits n = n := by
  have hcast : (n : Int) < 2 ^ bits := by exact_mod_cast h
  unfold unsignedColumn
  omega

/-- The first block has a row, and so has every other one with a program. -/
theorem mem_builtRows : e ∈ builtRows machine b ↔ ∃ i, i < b.1.words.length ∧
    (i = 0 ∨ b.1.words.getD i 0 ≠ 0) ∧ e = frameRow machine (b.1.toFrame b.2) i := by
  have hwords : (b.1.toFrame b.2).words = b.1.words := rfl
  unfold builtRows frameRows
  rw [List.mem_filterMap]
  refine exists_congr fun i => ?_
  rw [List.mem_range, hwords, Server.keptRow, hwords, Option.ite_none_left_eq_some,
    Option.some.injEq, @eq_comm _ (frameRow _ _ _)]
  refine and_congr_right fun _ => and_congr_left fun _ => ?_
  rw [not_and_or, or_comm]
  exact or_congr_left (by omega)

theorem logRow_frameRow (hi : i < b.1.words.length) :
    (frameRow machine (b.1.toFrame b.2) i).logRow cs = builtLogRow cs machine b.1 i := by
  have htime : unsignedColumn 32 (fieldValue 10 (b.1.toFrame b.2).stamp : Nat) = b.1.minute := by
    rw [BuiltFrame.fieldValue_toFrame]
    refine unsignedColumn_of_lt ?_
    have hlt := b.2.clock_lt
    have hsec : 0 ≤ Client.tmSec b.1.clock := Int.emod_nonneg _ (by decide)
    unfold BuiltFrame.minute
    omega
  have hoffset : unsignedColumn 8 (i + 1 : Nat) = (i : Int) + 1 := by
    have hle := b.2.words_le
    rw [unsignedColumn_of_lt (by omega)]
    exact Int.natCast_succ i
  have hdata : unsignedColumn 32 (b.1.words.getD i 0).toNat = (b.1.words.getD i 0).toNat :=
    unsignedColumn_of_lt (b.1.words.getD i 0).toNat_lt
  unfold EVENT.logRow builtLogRow
  rw [LogRow.mk.injEq]
  exact ⟨htime, rfl, rfl, hoffset, hdata⟩

end

section
variable {s t : Pipeline} {before : EventDb} {clients : Bytes → GatherState} {tables : Tables}
  {acts : List PipelineAction}

theorem pipelineInv_run (hdb : before.Sound cs)
    (hclients : ∀ machine, ∃ clock eventSize programCount,
      clients machine = GatherState.begin clock eventSize programCount)
    (hproper : AllSteps (pipelineStep cs) (fun s act => act.Proper cs s) acts
      (Pipeline.start clients tables before))
    (h : run (pipelineStep cs) acts (Pipeline.start clients tables before) = some s) :
    PipelineInv cs before s :=
  run_invariant_of_allSteps (fun _ _ _ => pipelineInv_step) (pipelineInv_start hdb hclients)
    hproper h

end

/-- The machine is on the list of the server. -/
def listedMachine : Tables :=
  { Tables.empty ∅ ∅ with
    machineList := [str "pc1"]
    mapMnameIp := Table.set ∅ (str "pc1") (str "10.0.0.1") }

/-- `ann` is logged in on it one second after a full minute, and the cycle pushes a frame. The
server asks, gets it in two chunks, and uploads its row. -/
def annMinute : List PipelineAction :=
  List.replicate 9 (.client (str "pc1") (.gather (annInput 1))) ++
    [.client (str "pc1") (.elapse 59)] ++
    List.replicate 6 (.client (str "pc1") (.gather (annInput 1))) ++
    [.exchange (str "pc1") ⟨fun _ => ⟨100, 0⟩, fun _ => 0,
      [str "21000000", str "0103ann1000000080"], [], ⟨fun _ => 0, [], [], []⟩, fun _ => 0, 100⟩,
      .queue 0] ++
    [UploaderAction.begin 0 0, .select (.rows []), .insertUser .done ⟨7, str "ann"⟩,
      .select (.rows [7]), .select (.rows [3]), .insertEvent true].map .upload

/-- It starts one second after a full minute, on every machine. -/
def annStart : Pipeline :=
  Pipeline.start (fun _ => GatherState.begin 1000000021 32 1) listedMachine oneMachine

/-- The event is a request. -/
def IsRequest : ClientEvent → Prop
  | .request _ _ => True
  | _ => False

instance : (e : ClientEvent) → Decidable (IsRequest e)
  | .request _ _ => isTrue trivial
  | .elapse _ | .gather _ | .callHome _ => isFalse not_false

/-- No answer is lost, and the statement of the action does not fail. -/
def PipelineAction.Succeeds : PipelineAction → Prop
  | .client _ e => ¬ IsRequest e
  | .upload act => act.Succeeds
  | _ => True

instance : (act : PipelineAction) → Decidable act.Succeeds
  | .client _ e => inferInstanceAs (Decidable (¬ IsRequest e))
  | .upload act => inferInstanceAs (Decidable act.Succeeds)
  | .listen _ _ | .exchange _ _ | .fails _ _ | .queue _ => isTrue trivial

/-- A frame that was pushed to EVENTS is still there, or all its rows are on their way. -/
def Delivered (s : Pipeline) : Prop :=
  ∀ p ∈ s.stored, p.2 ∈ (s.clients p.1).events ∨
    ∃ b : {b : BuiltFrame // b.WellFormed}, b.1 ∈ (s.clients p.1).built ∧ p.2 = b.1.bytes ∧
      ∀ e ∈ builtRows p.1 b, e ∈ s.decoded ∨ e ∈ s.uploader.events

section
variable {s t : Pipeline} {before : EventDb}

theorem storedFrame_eq_some {c : GatherState} {input : GatherInput} {line : Bytes} :
    storedFrame c (.gather input) = some line ↔ c.pc = .store line ∧ line.length > 0 := by
  unfold storedFrame
  cases hpc : c.pc with
  | store stored =>
      simp only [Option.ite_none_right_eq_some, Option.some.injEq, GatherPc.store.injEq]
      exact ⟨fun ⟨hlength, heq⟩ => ⟨heq, heq ▸ hlength⟩, fun ⟨heq, hlength⟩ => ⟨heq ▸ hlength, heq⟩⟩
  | _ => simp

/-- `gather_data` leaves EVENTS alone, or pushes a frame. -/
theorem events_clientStep {c c' : GatherState} {e : ClientEvent} (hrequest : ¬ IsRequest e)
    (h : clientStep c e = some c') :
    c.events ⊆ c'.events ∧ ∀ line ∈ storedFrame c e, line ∈ c'.events := by
  cases e with
  | elapse n | callHome n =>
      cases h
      exact ⟨List.Subset.refl _, by rintro _ ⟨⟩⟩
  | request outcomes outside => exact absurd trivial hrequest
  | gather input =>
      have hev : c.events ⊆ c'.events := by
        obtain ⟨-, -, ⟨hev, -⟩ | ⟨-, hev, -⟩ | ⟨line, -, hev, -⟩ | ⟨line, -, -, -, hev⟩⟩ :=
          gatherStep_frames h
        · exact hev ▸ List.Subset.refl _
        · exact hev ▸ List.Subset.refl _
        · exact hev ▸ List.Subset.refl _
        · rw [hev]
          split
          · exact List.subset_append_left _ _
          · exact List.Subset.refl _
      refine ⟨hev, fun line hline => ?_⟩
      obtain ⟨hpc, hlength⟩ := storedFrame_eq_some.mp hline
      simp only [clientStep, gatherStep, hpc] at h
      cases h
      dsimp only
      rw [if_pos hlength]
      exact List.mem_append_right _ (List.mem_singleton_self _)

/-- Where a frame is, in a state with more frames, and with the same rows on their way. -/
theorem Delivered.mono (h : Delivered s) (hstored : t.stored = s.stored)
    (hevents : ∀ machine, (s.clients machine).events ⊆ (t.clients machine).events)
    (hbuilt : ∀ machine, (s.clients machine).built ⊆ (t.clients machine).built)
    (hrows : ∀ e, e ∈ s.decoded ∨ e ∈ s.uploader.events →
      e ∈ t.decoded ∨ e ∈ t.uploader.events) : Delivered t := by
  intro p hp
  rw [hstored] at hp
  refine (h p hp).imp (fun hline => hevents p.1 hline) ?_
  rintro ⟨b, hb, hbytes, hway⟩
  exact ⟨b, hbuilt p.1 hb, hbytes, fun e he => hrows e (hway e he)⟩

theorem delivered_client {client : GatherState} {e : ClientEvent} (h : Delivered s)
    (hrequest : ¬ IsRequest e)
    (hstep : clientStep (s.clients machine) e = some client) :
    Delivered { s.setClient machine client with
      stored := s.stored ++ (storedFrame (s.clients machine) e).toList.map (machine, ·) } := by
  obtain ⟨hsub, hstored⟩ := events_clientStep hrequest hstep
  have hevents (machine' : Bytes) : (s.clients machine').events ⊆
      (Function.update s.clients machine client machine').events := by
    by_cases heq : machine' = machine
    · subst heq
      rw [Function.update_self]
      exact hsub
    · rw [Function.update_of_ne heq]
      exact List.Subset.refl _
  have hset : Delivered (s.setClient machine client) :=
    h.mono rfl hevents (built_subset hstep) fun _ he => he
  intro p hp
  rcases List.mem_append.mp hp with hp | hp
  · exact hset p hp
  · obtain ⟨line, hline, rfl⟩ := List.mem_map.mp hp
    refine Or.inl ?_
    change line ∈ (Function.update s.clients machine client machine).events
    rw [Function.update_self]
    exact hstored line (Option.mem_toList.mp hline)

theorem delivered_exchange (h : Delivered s) (hinv : PipelineInv cs before s)
    (hproper : PipelineAction.Proper cs s (.exchange machine x))
    (hstep : s.exchange machine x = some t) : Delivered t := by
  obtain ⟨hexchange, -, -⟩ := hproper
  obtain ⟨client, hclient, hclients, huploader, hstored, bs, hbuilt, hdecoded, hthere⟩ :=
    exchange_rows (hinv.sourced machine) (fun b hb => (hinv.built machine b hb).1) hexchange hstep
  have hself : t.clients machine = client := by
    rw [hclients]
    exact Function.update_self ..
  have hstep' : clientStep (s.clients machine) (.request x.outcomes x.outside) = some client :=
    hclient
  have hmore (machine' : Bytes) :
      (s.clients machine').built ⊆ (t.clients machine').built := by
    rw [hclients]
    exact built_subset hstep' machine'
  have hrows (e : EVENT) (he : e ∈ s.decoded ∨ e ∈ s.uploader.events) :
      e ∈ t.decoded ∨ e ∈ t.uploader.events := by
    rw [hdecoded, huploader]
    exact he.imp_left (List.mem_append_left _)
  intro p hp
  rw [hstored] at hp
  rcases h p hp with hline | ⟨b, hb, hbytes, hway⟩
  · by_cases heq : p.1 = machine
    · rw [heq] at hline ⊢
      rw [hself]
      refine (hthere p.2 hline).imp_right ?_
      rintro ⟨b, hb, hbytes⟩
      refine ⟨b, hbuilt b hb, hbytes, fun e he => Or.inl ?_⟩
      rw [hdecoded]
      exact List.mem_append_right _ (List.mem_flatMap.mpr ⟨b, hb, he⟩)
    · left
      rw [hclients, Function.update_of_ne heq]
      exact hline
  · exact Or.inr ⟨b, hmore p.1 hb, hbytes, fun e he => hrows e (hway e he)⟩

/-- A step that does not fail keeps every frame on its way. -/
theorem delivered_step {act : PipelineAction} (h : Delivered s) (hinv : PipelineInv cs before s)
    (hproper : act.Proper cs s) (hsucceeds : act.Succeeds)
    (hstep : pipelineStep cs s act = some t) : Delivered t := by
  cases act with
  | client machine e =>
      obtain ⟨client, hclient, rfl⟩ := Option.map_eq_some_iff.mp hstep
      exact delivered_client h hsucceeds hclient
  | listen call fuel =>
      obtain ⟨handled, -, rfl⟩ := Option.map_eq_some_iff.mp hstep
      exact h
  | exchange machine x => exact delivered_exchange h hinv hproper hstep
  | fails machine outcome =>
      cases outcome with
      | response rBuffer env memory => cases hstep
      | _ =>
          simp only [pipelineStep] at hstep
          split at hstep
          · obtain ⟨tables, -, rfl⟩ := Option.map_eq_some_iff.mp hstep
            exact h
          · cases hstep
  | queue i =>
      obtain ⟨e, hi, he⟩ := Option.bind_eq_some_iff.mp hstep
      obtain ⟨uploader, hup, rfl⟩ := Option.map_eq_some_iff.mp he
      have hpush : (UploaderAction.push e).Succeeds := trivial
      have hperm := events_step hpush hup
      refine h.mono rfl (fun _ => List.Subset.refl _) (fun _ => List.Subset.refl _) fun x hx => ?_
      rcases hx with hx | hx
      · by_cases hxe : x = e
        · right
          exact hperm.mem_iff.mpr (List.mem_append_right _ (hxe ▸ List.mem_singleton_self _))
        · left
          obtain ⟨k, hk⟩ := List.mem_iff_getElem?.mp hx
          have hki : k ≠ i := by
            rintro rfl
            exact hxe (Option.some.inj (hk.symm.trans hi))
          exact List.mem_eraseIdx_iff_getElem?.mpr ⟨k, hki, hk⟩
      · exact Or.inr (hperm.mem_iff.mpr (List.mem_append_left _ hx))
  | upload act =>
      have hact : act.Succeeds := hsucceeds
      cases act with
      | push e => cases hstep
      | _ =>
          simp only [pipelineStep] at hstep
          obtain ⟨uploader, hup, rfl⟩ := Option.map_eq_some_iff.mp hstep
          have hperm := events_step hact hup
          refine h.mono rfl (fun _ => List.Subset.refl _) (fun _ => List.Subset.refl _)
            fun x hx => ?_
          exact hx.imp_right fun hx => hperm.mem_iff.mpr (List.mem_append_left _ hx)

end

section
variable {s : Pipeline} {before : EventDb} {clients : Bytes → GatherState} {tables : Tables}
  {acts : List PipelineAction}

end

end Monitoring
