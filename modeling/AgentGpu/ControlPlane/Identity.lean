import AgentGpu.Foundation.History
import AgentGpu.ControlPlane.Calls

namespace AgentGpu.ControlPlane

open Foundation

variable {s s' : Server} {i : Instr} {x : Choice} {e : Effect Server Instr} {h ch : ℕ}

/-- What the streams other than `h`, their callers and the queue have is as it was, and the
process still runs. -/
structure SparesOthers (h : ℕ) (s s' : Server) : Prop where
  worker : ∀ k, k ≠ h → s'.worker k = s.worker k
  entry : ∀ id k, k ≠ h → (s'.workers.lookup id = some k ↔ s.workers.lookup id = some k)
  results : ∀ ch, s.home ch ≠ h → s'.results ch = s.results ch
  observed : ∀ ch, s.home ch ≠ h → s'.observed ch = s.observed ch
  waiters : s'.waiters = s.waiters
  queue : s'.queue = s.queue
  out : s'.out = s.out
  finished : s'.finished = s.finished
  received : s'.received = s.received
  home : s'.home = s.home
  running : s'.panicked = s.panicked

namespace SparesOthers

theorem refl (h : ℕ) (s : Server) : SparesOthers h s s :=
  ⟨fun _ _ ↦ rfl, fun _ _ _ ↦ Iff.rfl, fun _ _ ↦ rfl, fun _ _ ↦ rfl, rfl, rfl, rfl, rfl, rfl, rfl, rfl⟩

theorem trans {s'' : Server} (h₁ : SparesOthers h s s') (h₂ : SparesOthers h s' s'') :
    SparesOthers h s s'' where
  worker k hk := (h₂.worker k hk).trans (h₁.worker k hk)
  entry id k hk := (h₂.entry id k hk).trans (h₁.entry id k hk)
  results ch hch := (h₂.results ch (h₁.home ▸ hch)).trans (h₁.results ch hch)
  observed ch hch := (h₂.observed ch (h₁.home ▸ hch)).trans (h₁.observed ch hch)
  waiters := h₂.waiters.trans h₁.waiters
  queue := h₂.queue.trans h₁.queue
  out := h₂.out.trans h₁.out
  finished := h₂.finished.trans h₁.finished
  received := h₂.received.trans h₁.received
  home := h₂.home.trans h₁.home
  running := h₂.running.trans h₁.running

theorem setWorker (h : ℕ) (s : Server) (w : Worker) : SparesOthers h s (s.setWorker h w) :=
  { refl h s with worker := fun _ hk ↦ Server.setWorker_of_ne hk }

theorem chan_ne {k : ℕ} (hch : s.home ch = h) (hk : s.home k ≠ h) : k ≠ ch := by
  rintro rfl
  exact hk hch

theorem setResult (hch : s.home ch = h) (c : Chan Outcome) : SparesOthers h s (s.setResult ch c) :=
  { refl h s with
    results := fun _ hk ↦ Function.update_of_ne (chan_ne hch hk) .. }

theorem unregister (hr : s.registered h) :
    SparesOthers h s { s with workers := s.workers.erase (s.worker h).id } := by
  refine { refl h s with entry := fun id k hk ↦ ?_ }
  have hlookup := Server.registered_iff.mp hr
  by_cases hid : id = (s.worker h).id
  · subst hid
    have hold : s.workers.lookup (s.worker h).id ≠ some k := by
      rw [hlookup]
      exact fun heq ↦ hk (Option.some.inj heq).symm
    simp [AList.lookup_erase, hold]
  · have hsame := AList.lookup_erase_ne (s := s.workers) hid
    exact iff_of_eq (congrArg (· = some k) hsame)

theorem forwardChunk (hch : s.home ch = h) (hopen : (s.observed ch).closed = false) (c : Produced) :
    SparesOthers h s (s.forwardChunk ch c) := by
  refine { refl h s with observed := fun k hk ↦ ?_, running := ?_ }
  · exact Function.update_of_ne (chan_ne hch hk) ..
  · change (s.panicked || (s.observed ch).closed) = s.panicked
    rw [hopen, Bool.or_false]

theorem closeObserver (hch : s.home ch = h) (hopen : (s.observed ch).closed = false) :
    SparesOthers h s (s.closeObserver ch) := by
  refine { refl h s with observed := fun k hk ↦ ?_, running := ?_ }
  · exact Function.update_of_ne (chan_ne hch hk) ..
  · change (s.panicked || (s.observed ch).closed) = s.panicked
    rw [hopen, Bool.or_false]

end SparesOthers

def Instr.Ends (s : Server) (h : ℕ) : Instr → Prop
  | .unregister k _ | .fail k _ | .cancel k | .markDraining k _ | .reap k _ => k = h
  | .failDeliver ch _ | .failForward ch _ | .failClose ch => s.home ch = h
  | _ => False

theorem Step.spares_of_ends (hs : Step s i x e) (hi : i.Ends s h)
    (hopen : ∀ ch, i.closes ch → (s.observed ch).closed = false) :
    SparesOthers h s e.shared := by
  induction hs with
  | quit | unregisterOther | reap => exact .refl h s
  | unregister hr =>
    obtain rfl := hi
    exact .unregister hr
  | fail | cancel | markDraining =>
    obtain rfl := hi
    exact .setWorker _ s _
  | failDeliver => exact .setResult hi _
  | failForward ch => exact .forwardChunk hi (hopen ch (beq_self_eq_true ch)) _
  | failClose ch => exact .closeObserver hi (hopen ch (beq_self_eq_true ch))
  | _ => cases hi

theorem Step.closing_fresh (hs : Step s i x e) (hI : Homed s) (hA : AtHome s) (hi : i.Ends s h) :
    ∀ j ∈ e.fresh, j.Ends e.shared h := by
  induction hs with
  | @fail k cause =>
    obtain rfl := hi
    refine Effect.forall_fresh_next (forall_fail (fun jobID ch hl ↦ ?_) (fun jobID ch hl ↦ ?_) rfl)
    · exact (hA k jobID ch hl).2
    · exact (hI.observers k jobID ch hl).2
  | markDraining hsp => exact forall_fresh_markDraining hsp hi
  | unregister | unregisterOther | reap | failForward => exact Effect.forall_fresh_singleton hi
  | quit | cancel | failDeliver | failClose => exact Effect.forall_fresh_nil
  | _ => cases hi

theorem Step.spares_iff_of_reader (hs : Step s i x e) (hi : i.readerOf h) (hup : s.panicked = false)
    (hhomed : i.Homed s) (hat : i.AtHome s)
    (hopen : ∀ ch, i.closes ch → (s.observed ch).closed = false) :
    SparesOthers h s e.shared ↔ ∀ ch, i.forwards ch → (s.observed ch).closed = false := by
  have hspares (hsp : SparesOthers h s e.shared) (hquiet : ∀ ch, i.forwards ch = false) :
      SparesOthers h s e.shared ↔ ∀ ch, i.forwards ch → (s.observed ch).closed = false :=
    ⟨fun _ ch hch ↦ absurd hch (by simp [hquiet ch]), fun _ ↦ hsp⟩
  induction hs with
  | @quit i x hq => cases i <;> simp [Instr.readerOf, Instr.mayQuit] at hi hq
  | leave | unknownJob => exact hspares (.refl h s) fun _ ↦ rfl
  | heartbeat | deregister | chunk | chunkObserved =>
    obtain rfl := eq_of_beq hi
    exact hspares (.setWorker _ s _) fun _ ↦ rfl
  | result => exact hspares { SparesOthers.refl h s with } fun _ ↦ rfl
  | lastChunk | lastChunkObserved | resolve =>
    obtain rfl := eq_of_beq hi
    exact hspares { SparesOthers.setWorker _ s _ with } fun _ ↦ rfl
  | forward k ch c =>
    obtain rfl := eq_of_beq hi
    refine ⟨fun hsp k' hk' ↦ ?_, fun hfree ↦ .forwardChunk hhomed.2 (hfree ch (beq_self_eq_true ch)) c⟩
    obtain rfl := eq_of_beq hk'
    have hrunning : (s.panicked || (s.observed ch).closed) = s.panicked := hsp.running
    simpa [hup] using hrunning
  | forwardLast k ch c =>
    obtain rfl := eq_of_beq hi
    exact hspares (.forwardChunk hhomed.2 (hopen ch (beq_self_eq_true ch)) c) fun _ ↦ rfl
  | closeLast k ch =>
    obtain rfl := eq_of_beq hi
    exact hspares (.closeObserver hhomed.2 (hopen ch (beq_self_eq_true ch))) fun _ ↦ rfl
  | deliver =>
    obtain rfl := eq_of_beq hi
    exact hspares (.setResult hat.2 _) fun _ ↦ rfl
  | _ => cases hi

def logSession (s : Server) (i : Instr) (_ : Choice) (l : List (ℕ × String)) : List (ℕ × String) :=
  match i with
  | .register id _ => (s.nextSes + 1, id) :: l
  | _ => l

def lastSession (l : List (ℕ × String)) (id : String) : Option ℕ :=
  (l.find? (·.2 = id)).map (·.1)

structure Enrolled (s : Server) (l : List (ℕ × String)) : Prop where
  decreasing : l.Pairwise fun a b ↦ b.1 < a.1
  given : ∀ a ∈ l, a.1 ≤ s.nextSes ∧ (s.worker a.1).id = a.2
  entry : ∀ id h, s.workers.lookup id = some h → lastSession l id = some h

theorem Enrolled.register {l : List (ℕ × String)} (hE : Enrolled s l) (id : String)
    (models : List Model) : Enrolled (addWorker s id models) ((s.nextSes + 1, id) :: l) where
  decreasing := List.pairwise_cons.mpr
    ⟨fun a ha ↦ Nat.lt_succ_of_le (hE.given a ha).1, hE.decreasing⟩
  given := by
    refine List.forall_mem_cons.mpr ⟨⟨le_rfl, addWorker_id s id models⟩, fun a ha ↦ ?_⟩
    obtain ⟨hle, hid⟩ := hE.given a ha
    rw [addWorker_of_ne (by omega)]
    exact ⟨Nat.le_succ_of_le hle, hid⟩
  entry id' h hl := by
    by_cases hid : id' = id
    · subst hid
      have hnew := (AList.lookup_insert s.workers).symm.trans hl
      simpa [lastSession] using hnew
    · have hold := hE.entry id' h ((AList.lookup_insert_ne hid).symm.trans hl)
      simpa [lastSession, Ne.symm hid] using hold

theorem Step.enrolled {l : List (ℕ × String)} (hs : Step s i x e) (hE : Enrolled s l) :
    Enrolled e.shared (logSession s i x l) := by
  rcases hs.registry_cases with ⟨id, models, rfl, rfl⟩ | ⟨k, cause, rfl, -, rfl⟩ | ⟨hreg, hsame⟩
  · exact hE.register id models
  · exact { hE with entry := fun id h hl ↦ hE.entry id h (Table.lookup_of_erase hl) }
  · have hlog : logSession s i x l = l := by
      cases i with
      | register id models => exact absurd rfl (hreg id models)
      | _ => rfl
    rw [hlog]
    refine ⟨hE.decreasing, fun a ha ↦ ?_, fun id h hl ↦ hE.entry id h (hsame.workers ▸ hl)⟩
    rw [hsame.nextSes, hsame.id]
    exact hE.given a ha

section

variable {t : Time} {d : Duration} {n : ℕ}

theorem open_of_closes {c : Config Server Instr} (hc : controlPlane.Reaches (boot (new t d n)) c)
    (hi : i ∈ c.soup) (hcloses : i.closes ch) : (c.shared.observed ch).closed = false := by
  have honce := closers_le_one hc ch
  have hpos : 0 < c.soup.countP (·.closes ch) := Multiset.countP_pos.mpr ⟨i, hi, hcloses⟩
  cases hclosed : (c.shared.observed ch).closed with
  | false => rfl
  | true =>
    rw [hclosed, Bool.toNat_true] at honce
    omega

theorem enrolled_of_runs {c : Config (Server × List (ℕ × String)) Instr}
    (hc : (controlPlane.record logSession).Reaches ((boot (new t d n)).logging []) c) :
    Enrolled c.shared.1 c.shared.2 := by
  refine hc.record_invariant (fun s l _ ↦ Enrolled s l) ?_ ?_
  · exact ⟨.nil, by simp [Config.logging], by simp [Config.logging, boot, new]⟩
  · exact fun c i x R e _ hE _ he ↦ (step_of_exec he).enrolled hE

/-- Every registration gets a session number above all earlier ones. What the registry holds
for an id is the last stream that registered under it, and all that tears down, evicts or
drains one stream leaves the other streams, their jobs and their callers alone. -/
theorem registry_follows_streams {c : Config (Server × List (ℕ × String)) Instr}
    (hc : (controlPlane.record logSession).Reaches ((boot (new t d n)).logging []) c) :
    (c.shared.2.Pairwise fun a b ↦ b.1 < a.1) ∧
      (∀ id h, c.shared.1.workers.lookup id = some h →
        lastSession c.shared.2 id = some h ∧ (c.shared.1.worker h).id = id) ∧
      ∀ i ∈ c.soup, ∀ h x e, i.Ends c.shared.1 h → controlPlane.exec c.shared.1 i x = some e →
        SparesOthers h c.shared.1 e.shared ∧ ∀ j ∈ e.fresh, j.Ends e.shared h := by
  have hE := enrolled_of_runs hc
  have hreach := hc.erase_reaches
  refine ⟨hE.decreasing, fun id h hl ↦ ⟨hE.entry id h hl, ?_⟩, fun i hi h x e hends he ↦ ?_⟩
  · obtain ⟨⟨k, id'⟩, hfind, hk⟩ := Option.map_eq_some_iff.mp (hE.entry id h hl)
    have hid : id' = id := by simpa using List.find?_some hfind
    subst hk hid
    exact (hE.given _ (List.mem_of_find?_eq_some hfind)).2
  · have hs := step_of_exec he
    exact ⟨hs.spares_of_ends hends fun ch hcl ↦ open_of_closes hreach hi hcl,
      hs.closing_fresh (homed_of_reaches hreach).1 (atHome_of_reaches hreach) hends⟩

/-- A worker reconnects before the server notices that its first stream is broken, and the
second stream has a job when the first one's teardown reaches the registry. -/
theorem registry_follows_streams_reconnect :
    ∃ c, (controlPlane.record logSession).Reaches ((boot (new 0 0 0)).logging []) c ∧
      (c.shared.2 = [(2, "w"), (1, "w")] ∧ .unregister 1 .disconnected ∈ c.soup) ∧
      (c.shared.1.worker 2).pending.keys = ["r"] ∧ c.shared.1.workers.lookup "w" = some 2 ∧
      lastSession c.shared.2 "w" = some 2 ∧
      ∀ x e, controlPlane.exec c.shared.1 (.unregister 1 .disconnected) x = some e →
        SparesOthers 1 c.shared.1 e.shared := by
  have hrun : ∃ c, (controlPlane.record logSession).Reaches ((boot (new 0 0 0)).logging []) c ∧
      (c.shared.2 = [(2, "w"), (1, "w")] ∧ .unregister 1 .disconnected ∈ c.soup) ∧
      (c.shared.1.worker 2).pending.keys = ["r"] ∧ c.shared.1.workers.lookup "w" = some 2 := by
    apply Machine.exists_run [(0, .connect "w" [⟨"m", ""⟩]), (3, .go), (3, .go), (0, .connect "w" [⟨"m", ""⟩]),
      (5, .go), (5, .go), (0, .request "r" none "m" false), (7, .worker 2), (7, .go), (3, .streamEnd)]
    decide +kernel
  obtain ⟨c, hc, hlog, hpending, hentry⟩ := hrun
  obtain ⟨-, hlast, hspares⟩ := registry_follows_streams hc
  exact ⟨c, hc, hlog, hpending, hentry, (hlast "w" 2 hentry).1,
    fun x e he ↦ (hspares _ hlog.2 1 x e rfl he).1⟩

/-- A reader that took an observer channel out of the table for a chunk finds it open when it
sends. -/
def ForwardsOpen (c : Config Server Instr) (i : Instr) (_ : Choice) : Prop :=
  match i with
  | .forward _ ch _ => (c.shared.observed ch).closed = false
  | _ => True

instance (c : Config Server Instr) (i : Instr) (x : Choice) : Decidable (ForwardsOpen c i x) := by
  delta ForwardsOpen
  induction i using Instr.casesOn <;> infer_instance

theorem forwardsOpen_iff {c : Config Server Instr} :
    ForwardsOpen c i x ↔ ∀ ch, i.forwards ch → (c.shared.observed ch).closed = false := by
  cases i <;> simp [ForwardsOpen, Instr.forwards]

theorem calm_of_runs {c : Config Server Instr}
    (hc : controlPlane.Runs ForwardsOpen (boot (new t d n)) c) : c.shared.panicked = false := by
  have hrun := hc.strengthen fun c hc ↦ hc.reaches
  refine hrun.soup_invariant (fun s _ ↦ s.panicked = false) rfl ?_
  intro c i x R e hsoup hcalm hg he
  obtain ⟨hopen, hreach⟩ := hg
  have hi : i ∈ c.soup := hsoup ▸ Multiset.mem_cons_self i R
  rcases (step_of_exec he).panicked_cases with hsame | ⟨ch, hch, hpanicked⟩
  · rw [hsame, hcalm]
  · have hfree : (c.shared.observed ch).closed = false := by
      rcases hch with hcloses | hforwards
      · exact open_of_closes hreach hi hcloses
      · exact forwardsOpen_iff.mp hopen ch hforwards
    rw [hpanicked, hcalm, hfree, Bool.or_false]

theorem reader_spares_iff {c : Config Server Instr}
    (hc : controlPlane.Runs ForwardsOpen (boot (new t d n)) c) (hi : i ∈ c.soup)
    (hreader : i.readerOf h) (he : controlPlane.exec c.shared i x = some e) :
    SparesOthers h c.shared e.shared ↔ ForwardsOpen c i x := by
  rw [forwardsOpen_iff]
  exact (step_of_exec he).spares_iff_of_reader hreader (calm_of_runs hc)
    ((homed_of_reaches hc.reaches).2 i hi) (delivers_atHome hc.reaches i hi)
    fun ch hcl ↦ open_of_closes hc.reaches hi hcl

def ReaderSteps (h : ℕ) (c : Config Server Instr) (i : Instr) (x : Choice) : Prop :=
  i.readerOf h ∧ ForwardsOpen c i x

instance (h : ℕ) (c : Config Server Instr) (i : Instr) (x : Choice) :
    Decidable (ReaderSteps h c i x) :=
  inferInstanceAs (Decidable (i.readerOf h ∧ ForwardsOpen c i x))

theorem reader_run_spares {c c' : Config Server Instr}
    (hc : controlPlane.Runs ForwardsOpen (boot (new t d n)) c)
    (hr : controlPlane.Runs (ReaderSteps h) c c') :
    controlPlane.Runs ForwardsOpen (boot (new t d n)) c' ∧ SparesOthers h c.shared c'.shared := by
  induction hr with
  | start => exact ⟨hc, .refl h _⟩
  | @step c' k i rest x e _ hk hg he ih =>
    obtain ⟨hrun, hspares⟩ := ih
    have hi : i ∈ c'.soup := Config.mem_soup.mpr ⟨_, List.mem_of_getElem? hk, List.mem_cons_self⟩
    exact ⟨hrun.step hk hg.2 he, hspares.trans ((reader_spares_iff hrun hi hg.1 he).mpr hg.2)⟩

/-- In a run in which no reader sends on a channel that was closed, the process stays up, and what
the reader loop of stream `h` does with its messages changes nothing of the other streams. A step
of a reader loop that does send on a closed channel is the only kind that does. -/
theorem messages_stay_with_stream {c : Config Server Instr}
    (hc : controlPlane.Runs ForwardsOpen (boot (new t d n)) c) :
    c.shared.panicked = false ∧
      (∀ h c', controlPlane.Runs (ReaderSteps h) c c' → SparesOthers h c.shared c'.shared) ∧
      ∀ i ∈ c.soup, ∀ h x e, i.readerOf h → controlPlane.exec c.shared i x = some e →
        (SparesOthers h c.shared e.shared ↔ ForwardsOpen c i x) :=
  ⟨calm_of_runs hc, fun _ _ hr ↦ (reader_run_spares hc hr).2,
    fun _ hi _ _ _ hreader he ↦ reader_spares_iff hc hi hreader he⟩

/-- Two workers, each with a job of its own. The first sends a result that names the job of the
second, a heartbeat and a deregistration. -/
theorem messages_stay_with_stream_twoWorkers :
    ∃ c c', controlPlane.Runs ForwardsOpen (boot (new 0 0 0)) c ∧
      controlPlane.Runs (ReaderSteps 1) c c' ∧ (c'.shared.worker 1).draining = true ∧
      (c.shared.worker 2).pending.keys = ["b"] ∧ c'.shared.worker 2 = c.shared.worker 2 := by
  have hrun : ∃ c, controlPlane.Runs ForwardsOpen (boot (new 0 0 0)) c ∧
      (c.shared.worker 2).pending.keys = ["b"] ∧
      ((controlPlane.play (ReaderSteps 1) c [(3, .message (.result ⟨{ jobID := "b" }, []⟩)), (3, .go),
        (3, .message (.heartbeat {})), (3, .message .deregister)]).any
          fun c' ↦ decide ((c'.shared.worker 1).draining = true)) = true := by
    apply Machine.exists_run [(0, .connect "w" [⟨"m", ""⟩]), (3, .go), (3, .go), (0, .connect "v" [⟨"m", ""⟩]),
      (5, .go), (5, .go), (0, .request "b" none "m" false), (7, .worker 2), (7, .go)]
    decide +kernel
  obtain ⟨c, hc, hpending, hplay⟩ := hrun
  obtain ⟨c', hc', hdraining⟩ := Machine.exists_run _ hplay
  exact ⟨c, c', hc, hc', hdraining, hpending,
    ((messages_stay_with_stream hc).2.1 1 c' hc').worker 2 (by decide)⟩

/-- The first worker's stream was found stale while its reader holds a chunk, and its observer
is closed. The reader then forwards the chunk, which brings down the process with the second
worker's job still pending. -/
theorem chunk_takes_down_other_streams :
    ∃ c i e, controlPlane.Runs ForwardsOpen (boot (new 0 0 0)) c ∧
      (i ∈ c.soup ∧ i.readerOf 1 ∧ c.shared.workers.lookup "v" = some 2 ∧
        (c.shared.worker 2).pending.keys = ["b"]) ∧
      controlPlane.exec c.shared i .go = some e ∧ e.shared.panicked = true := by
  have hrun : ∃ c, controlPlane.Runs ForwardsOpen (boot (new 0 0 0)) c ∧
      (.forward 1 0 ⟨{ jobID := "r", delta := "a" }, some 0⟩ ∈ c.soup ∧
        c.shared.workers.lookup "v" = some 2 ∧ (c.shared.worker 2).pending.keys = ["b"]) ∧
      (c.shared.observed 0).closed = true := by
    apply Machine.exists_run (evictDuringStream ++ [(1, .go), (0, .connect "v" [⟨"m", ""⟩]), (9, .go), (9, .go),
      (0, .request "b" none "m" false), (11, .worker 2), (11, .go)])
    decide +kernel
  obtain ⟨c, hc, ⟨hi, hentry, hpending⟩, hclosed⟩ := hrun
  refine ⟨c, _, _, hc, ⟨hi, rfl, hentry, hpending⟩, rfl, ?_⟩
  change (c.shared.panicked || (c.shared.observed 0).closed) = true
  rw [hclosed, Bool.or_true]

end

end AgentGpu.ControlPlane
