import Mathlib.Data.List.Nodup
import AmlReal.Bitcoin.Analytics

/-! # A worker can always start again

The queue of the analytics worker keeps its limits, its jobs stay distinct and
none is queued beyond its attempts. Every state that the worker saves has these
properties, so its loader accepts the file, wherever a crash left it. -/

namespace AmlReal.Bitcoin.AnalyticsRecovery
open AmlReal.Foundations.Json AmlReal.Foundations.Checkpointed
open AmlReal.Foundations.Checkpointed.Session
open AmlReal.Foundations.Checks (bind_ok map_ok ensure_ok context_ok)
open AmlReal.Warehouse.Values AmlReal.Bitcoin.Analytics

section
variable (L : Library) (database : String) (config : Config)

structure JobOk (j : Job) : Prop where
  address : L.address j.address = .ok j.address
  status : j.status ∈ ["pending", "running", "retry", "failed"]
  attempts : j.attempts ≤ config.maxAttempts
  unused : j.status ∈ ["pending", "retry"] → j.attempts < config.maxAttempts
  id : ∃ a b c, j.id = "btc-job-" ++ L.digest (.array [a, b, c, .string j.address])

structure Inv (s : State) : Prop where
  contract : s.contract = version
  networkId : s.networkId = Network.bitcoin.id
  database : s.database = database
  definition : s.definitionHash = L.digest s.definition
  definitionHash : s.definitionHash = config.hash L
  phase : s.phase ∈ ["waiting", "running", "idle", "failed"]
  recent : s.recent.length ≤ maxRecent
  queue : s.queue.length ≤ maxQueue
  addresses : (s.queue.map (·.address)).Nodup
  jobs : ∀ j ∈ s.queue, JobOk L config j

/-- The frame of a state that was valid under its configuration. -/
def FrameOk (file : Value) : Prop :=
  ∃ config state, Config.validate config = .ok () ∧ Inv L database config state ∧
    file = frame L state ∧ L.size file ≤ maxBytes ∧ identifier database = .ok ()

end

section
variable {L : Library} {database : String} {config : Config}

/-! ## Loading -/

theorem ids_nodup (hL : L.Sound) {queue : List Job} (haddresses : (queue.map (·.address)).Nodup)
    (hjobs : ∀ j ∈ queue, JobOk L config j) : (queue.map (·.id)).Nodup := by
  have hqueue := List.Nodup.of_map _ haddresses
  refine List.Nodup.map_on (fun a ha b hb heq => ?_) hqueue
  obtain ⟨a₁, a₂, a₃, hida⟩ := (hjobs a ha).id
  obtain ⟨b₁, b₂, b₃, hidb⟩ := (hjobs b hb).id
  rw [hida, hidb] at heq
  have haddress := hL.job _ _ _ _ _ _ _ _ (String.toList_inj.mp (List.append_cancel_left
    (by simpa only [String.toList_append] using congrArg String.toList heq)))
  exact List.inj_on_of_nodup_map haddresses ha hb haddress

theorem checkJobs_ok {queue : List Job} (hmax : config.maxAttempts ≤ 20)
    (hjobs : ∀ j ∈ queue, JobOk L config j) (ids : List String)
    (hids : (ids ++ queue.map (·.id)).Nodup) : checkJobs L ids queue = .ok () := by
  induction queue generalizing ids with
  | nil => rfl
  | cons j rest ih =>
    have hj := hjobs j List.mem_cons_self
    have hattempts := hj.attempts
    rw [List.map_cons, List.nodup_append] at hids
    obtain ⟨hids, hrest, hdisjoint⟩ := hids
    have hnew : j.id ∉ ids := fun hmem => hdisjoint _ hmem _ List.mem_cons_self rfl
    have hnext : (j.id :: ids ++ rest.map (·.id)).Nodup := by
      rw [List.cons_append, List.nodup_cons, List.mem_append, List.nodup_append]
      rw [List.nodup_cons] at hrest
      refine ⟨by tauto, hids, hrest.2, fun a ha b hb => hdisjoint a ha b ?_⟩
      exact List.mem_cons_of_mem _ hb
    unfold checkJobs
    rw [hj.address, AmlReal.Foundations.Checks.ok_bind,
      AmlReal.Foundations.Checks.ensure_eq ⟨hnew, hj.status, by omega⟩]
    exact ih (fun k hk => hjobs k (List.mem_cons_of_mem _ hk)) _ hnext

theorem maxAttempts_of_validate (h : config.validate = .ok ()) :
    1 ≤ config.maxAttempts ∧ config.maxAttempts ≤ 20 := by
  unfold Config.validate at h
  obtain ⟨_, -, h⟩ := bind_ok h
  obtain ⟨-, -, -, -, -, hmax⟩ := ensure_ok h
  simpa [within] using hmax

/-- The loader accepts a valid frame and gives back its state. -/
theorem load_frame (hL : L.Sound) {state : State} (hvalid : config.validate = .ok ())
    (hinv : Inv L database config state) (hsize : L.size (frame L state) ≤ maxBytes)
    (hdatabase : identifier database = .ok ()) :
    load L (some (frame L state)) database = .ok (some state) := by
  have hchecksum : (frame L state)["checksum"] = .string (L.digest (L.toValue state)) := rfl
  have hbody : (frame L state)["state"] = L.toValue state := rfl
  have hids := ids_nodup hL hinv.addresses hinv.jobs
  have hjobs := checkJobs_ok (maxAttempts_of_validate hvalid).2 hinv.jobs []
    (by rwa [List.nil_append])
  unfold load
  rw [hdatabase, AmlReal.Foundations.Checks.ok_bind]
  simp only [hchecksum, hbody, hL.serialize]
  rw [AmlReal.Foundations.Checks.ensure_eq hsize, AmlReal.Foundations.Checks.ok_bind,
    AmlReal.Foundations.Checks.ensure_eq trivial, AmlReal.Foundations.Checks.ok_bind,
    AmlReal.Foundations.Checks.ok_bind,
    AmlReal.Foundations.Checks.ensure_eq ⟨hinv.contract, hinv.networkId, hinv.database⟩,
    AmlReal.Foundations.Checks.ok_bind,
    AmlReal.Foundations.Checks.ensure_eq ⟨hinv.queue, hinv.recent, hinv.definition⟩,
    AmlReal.Foundations.Checks.ok_bind, AmlReal.Foundations.Checks.ensure_eq hinv.phase,
    AmlReal.Foundations.Checks.ok_bind, hjobs]
  rfl

/-! ## Changes of the state -/

theorem Inv.withQueue {s : State} (h : Inv L database config s) {queue : List Job}
    (hlength : queue.length ≤ maxQueue) (haddresses : (queue.map (·.address)).Nodup)
    (hjobs : ∀ j ∈ queue, JobOk L config j) : Inv L database config { s with queue } :=
  { h with queue := hlength, addresses := haddresses, jobs := hjobs }

/-- Changes to single jobs that keep their addresses. -/
theorem Inv.mapJobs {s : State} (h : Inv L database config s) {f : Job → Job}
    (haddress : ∀ j, (f j).address = j.address)
    (hok : ∀ j ∈ s.queue, JobOk L config j → JobOk L config (f j)) :
    Inv L database config { s with queue := s.queue.map f } := by
  refine h.withQueue ?_ ?_ ?_
  · rw [List.length_map]
    exact h.queue
  · rw [List.map_map]
    have hsame : ((fun j : Job => j.address) ∘ f) = fun j => j.address := funext haddress
    rw [hsame]
    exact h.addresses
  · intro j hj
    obtain ⟨k, hk, rfl⟩ := List.mem_map.mp hj
    exact hok k hk (h.jobs k hk)

theorem JobOk.interrupt {j : Job} (h : JobOk L config j) (note : String) :
    JobOk L config (j.interrupt config note) := by
  unfold Job.interrupt
  split
  · by_cases hfull : j.attempts ≥ config.maxAttempts
    · rw [if_pos hfull]
      exact ⟨h.address, by simp, h.attempts, by simp, h.id⟩
    · rw [if_neg hfull]
      exact ⟨h.address, by simp, h.attempts, fun _ => Nat.lt_of_not_ge hfull, h.id⟩
  · exact h

theorem interrupt_address (config : Config) (note : String) (j : Job) :
    (j.interrupt config note).address = j.address := by
  unfold Job.interrupt
  split <;> rfl

theorem JobOk.fail {j : Job} (h : JobOk L config j) (now : Nat) (error : String) :
    JobOk L config (j.fail config now error) := by
  unfold Job.fail
  by_cases hfull : j.attempts ≥ config.maxAttempts
  · rw [if_pos hfull]
    exact ⟨h.address, by simp, h.attempts, by simp, h.id⟩
  · rw [if_neg hfull]
    exact ⟨h.address, by simp, h.attempts, fun _ => Nat.lt_of_not_ge hfull, h.id⟩

theorem Inv.finish {s : State} (h : Inv L database config s) (index : Nat)
    (result : Except String Value) (now : Nat) :
    Inv L database config (s.finish index result config now) := by
  unfold State.finish
  split
  · exact h
  · rename_i job value hjob
    have hsub := List.eraseIdx_sublist s.queue index
    refine { h with phase := by simp, recent := ?_, queue := ?_, addresses := ?_, jobs := ?_ }
    · have hrecent := h.recent
      dsimp only
      split
      · rw [List.length_eraseIdx, List.length_append]
        simp [maxRecent] at *
        omega
      · omega
    · exact Nat.le_trans hsub.length_le h.queue
    · exact h.addresses.sublist (hsub.map _)
    · intro j hj
      exact h.jobs j (hsub.subset hj)
  · rename_i job error hjob
    have hmem : job ∈ s.queue := List.mem_of_getElem? hjob
    refine { h with phase := by simp, queue := ?_, addresses := ?_, jobs := ?_ }
    · rw [List.length_set]
      exact h.queue
    · have hmap : (s.queue.set index (job.fail config now error)).map (·.address) =
          s.queue.map (·.address) := by
        obtain ⟨hlt, heq⟩ := List.getElem?_eq_some_iff.mp hjob
        have hlt' : index < (s.queue.map (·.address)).length := by rwa [List.length_map]
        have hsame : (job.fail config now error).address = (s.queue.map (·.address))[index] := by
          rw [List.getElem_map, heq]
          rfl
        rw [List.map_set, hsame, List.set_getElem_self]
      rw [hmap]
      exact h.addresses
    · intro j hj
      rcases List.mem_or_eq_of_mem_set hj with hj | rfl
      · exact h.jobs j hj
      · exact (h.jobs job hmem).fail now error

theorem modify_addresses {f : Job → Job} (hf : ∀ j, (f j).address = j.address) (queue : List Job)
    (index : Nat) : (queue.modify index f).map (·.address) = queue.map (·.address) := by
  induction queue generalizing index with
  | nil => simp
  | cons j rest ih =>
    cases index with
    | zero => simp [hf]
    | succ index => simp [ih]

theorem mem_modify {f : Job → Job} {queue : List Job} {index : Nat} {j : Job}
    (h : j ∈ queue.modify index f) : j ∈ queue ∨ ∃ k, queue[index]? = some k ∧ j = f k := by
  induction queue generalizing index with
  | nil => simp at h
  | cons k rest ih =>
    cases index with
    | zero =>
      rcases List.mem_cons.mp h with rfl | h
      · exact .inr ⟨k, rfl, rfl⟩
      · exact .inl (List.mem_cons_of_mem _ h)
    | succ index =>
      rcases List.mem_cons.mp h with rfl | h
      · exact .inl List.mem_cons_self
      · rcases ih h with h | ⟨k', hk, rfl⟩
        · exact .inl (List.mem_cons_of_mem _ h)
        · exact .inr ⟨k', hk, rfl⟩

/-- A fold that only ever holds one of the candidates ends on one of them. -/
theorem mem_of_foldl_choice {α : Type} {step : Option α → α → Option α}
    (hstep : ∀ best x, step best x = some x ∨ step best x = best) {xs : List α} {best : Option α}
    {found : α} (h : xs.foldl step best = some found) : found ∈ xs ∨ best = some found := by
  induction xs generalizing best with
  | nil => exact .inr h
  | cons x xs ih =>
    rcases ih h with hmem | hnext
    · exact .inl (List.mem_cons_of_mem _ hmem)
    · rcases hstep best x with hx | hbest
      · obtain rfl := Option.some.inj (hx.symm.trans hnext)
        exact .inl List.mem_cons_self
      · exact .inr (hbest ▸ hnext)

/-- `due` picks a job that waits for an attempt. -/
theorem due_waiting {s : State} {now index : Nat} (h : s.due now = some index) :
    ∃ j, s.queue[index]? = some j ∧ j.waiting now = true := by
  unfold State.due at h
  obtain ⟨⟨j, i⟩, hbest, rfl⟩ := Option.map_eq_some_iff.mp h
  suffices hmem : (j, i) ∈ s.queue.zipIdx.filter fun p => p.1.waiting now by
    obtain ⟨hmem, hwaiting⟩ := List.mem_filter.mp hmem
    exact ⟨j, List.mem_zipIdx_iff_getElem?.mp hmem, hwaiting⟩
  refine (mem_of_foldl_choice ?_ hbest).resolve_right (by simp)
  intro best p
  cases best with
  | none => exact .inl rfl
  | some b =>
    by_cases hbefore : p.1.before b.1
    · exact .inl (if_pos hbefore)
    · exact .inr (if_neg hbefore)

theorem Inv.start {s : State} (h : Inv L database config s) {now index : Nat}
    (hdue : s.due now = some index) : Inv L database config (s.start index) := by
  obtain ⟨job, hjob, hwaiting⟩ := due_waiting hdue
  refine { h with phase := by simp [State.start], queue := ?_, addresses := ?_, jobs := ?_ }
  · unfold State.start
    rw [List.length_modify]
    exact h.queue
  · have hkeep := modify_addresses (f := fun j : Job =>
      { j with status := "running", attempts := j.attempts + 1 }) (fun _ => rfl) s.queue index
    exact hkeep ▸ h.addresses
  · intro j hj
    rcases mem_modify hj with hj | ⟨k, hk, rfl⟩
    · exact h.jobs j hj
    · obtain rfl := Option.some.inj (hjob.symm.trans hk)
      have hok := h.jobs job (List.mem_of_getElem? hjob)
      have hunused : job.attempts < config.maxAttempts := by
        refine hok.unused ?_
        unfold Job.waiting at hwaiting
        simp at hwaiting
        simp [hwaiting.1]
      exact ⟨hok.address, by simp, hunused, by simp, hok.id⟩

theorem retryJob_jobs {id : String} {queue next : List Job} (h : retryJob id queue = some next) :
    next.map (·.address) = queue.map (·.address) ∧
      ∀ j ∈ next, j ∈ queue ∨ ∃ k ∈ queue, j =
        { k with attempts := 0, status := "pending", nextAttemptUnixMs := 0 } := by
  induction queue generalizing next with
  | nil => cases h
  | cons k rest ih =>
    unfold retryJob at h
    split at h
    · cases h
      refine ⟨rfl, fun j hj => ?_⟩
      rcases List.mem_cons.mp hj with rfl | hj
      · exact .inr ⟨k, List.mem_cons_self, rfl⟩
      · exact .inl (List.mem_cons_of_mem _ hj)
    · obtain ⟨tail, htail, rfl⟩ := Option.map_eq_some_iff.mp h
      obtain ⟨haddresses, hjobs⟩ := ih htail
      refine ⟨by rw [List.map_cons, List.map_cons, haddresses], fun j hj => ?_⟩
      rcases List.mem_cons.mp hj with rfl | hj
      · exact .inl List.mem_cons_self
      · rcases hjobs j hj with hj | ⟨k', hk', rfl⟩
        · exact .inl (List.mem_cons_of_mem _ hj)
        · exact .inr ⟨k', List.mem_cons_of_mem _ hk', rfl⟩

theorem Inv.retry {s : State} (h : Inv L database config s) (hmax : 1 ≤ config.maxAttempts)
    (id : String) {queue : List Job} (hretry : retryJob id s.queue = some queue) :
    Inv L database config { s with queue, reason := "manual_retry_queued" } := by
  obtain ⟨haddresses, hjobs⟩ := retryJob_jobs hretry
  have hlength := congrArg List.length haddresses
  rw [List.length_map, List.length_map] at hlength
  refine { h with queue := ?_, addresses := ?_, jobs := ?_ }
  · rw [hlength]
    exact h.queue
  · rw [haddresses]
    exact h.addresses
  · intro j hj
    rcases hjobs j hj with hj | ⟨k, hk, rfl⟩
    · exact h.jobs j hj
    · have hok := h.jobs k hk
      exact ⟨hok.address, by simp, Nat.zero_le _, fun _ => hmax, hok.id⟩

theorem Inv.enqueue {s : State} (h : Inv L database config s) (hmax : 1 ≤ config.maxAttempts)
    {address : String} (haddress : L.address address = .ok address)
    (hroom : s.queue.length < maxQueue) : Inv L database config (s.enqueue L address) := by
  unfold State.enqueue
  by_cases hknown : s.queue.any (·.address = address) = true
  · rw [if_pos hknown]
    exact { h with }
  · rw [if_neg hknown]
    have hnew : address ∉ s.queue.map (·.address) := by
      intro hmem
      obtain ⟨j, hj, hja⟩ := List.mem_map.mp hmem
      exact hknown (List.any_eq_true.mpr ⟨j, hj, by simpa using hja⟩)
    refine { h with queue := ?_, addresses := ?_, jobs := ?_ }
    · rw [List.length_append]
      exact hroom
    · rw [List.map_append, List.nodup_append]
      refine ⟨h.addresses, by simp, fun a ha b hb hab => ?_⟩
      obtain rfl := List.mem_singleton.mp hb
      exact hnew (hab ▸ ha)
    · intro j hj
      rcases List.mem_append.mp hj with hj | hj
      · exact h.jobs j hj
      · obtain rfl := List.mem_singleton.mp hj
        exact ⟨haddress, by simp, Nat.zero_le _, fun _ => hmax, _, _, _, rfl⟩

/-! ## Sessions -/

variable (hvalid : config.validate = .ok ())
include hvalid

/-- Saving keeps whatever does not depend on the generation and the heartbeat. -/
theorem keeps_save {P : State → Prop} (env : Env)
    (hP : ∀ s generation time, P s → P { s with generation, heartbeatUnixMs := time }) :
    Keeps (Inv L database config) (FrameOk L database) P (save L env) fun _ s => P s := by
  refine keeps_get.bind fun s₀ => keeps_lift.bind fun generation => ?_
  refine Keeps.bind (Q := fun _ s => P s) ?_ fun _ => ?_
  · exact keeps_update fun s hI hs => ⟨{ hI with }, hP s _ _ hs.2.2⟩
  refine keeps_get.bind fun s₁ => ?_
  refine keeps_ensure.bind fun _ => keeps_lift.bind fun _ => keeps_ensure.bind fun _ => ?_
  refine Keeps.bind (Q := fun _ s => P s) ?_ fun _ => ?_
  · refine (keeps_emit (P := fun s => s₁ = s ∧ P s ∧ L.size (frame L s₁) ≤ maxBytes ∧
      identifier s₁.database = .ok ()) ?_).weaken ?_ ?_
    · rintro s hI ⟨rfl, -, hsize, hdatabase⟩
      rw [hI.database] at hdatabase
      exact ⟨config, s₁, hvalid, hI, rfl, hsize, hdatabase⟩
    · rintro s - ⟨-, hdatabase, hsize, heq, hs⟩
      refine ⟨heq, hs, hsize, ?_⟩
      cases hr : identifier s₁.database with
      | error e => rw [hr] at hdatabase; cases hdatabase
      | ok u => rfl
    · rintro _ s - ⟨-, hs, -⟩
      exact hs
  · exact keeps_ensure.weaken (fun s _ hs => hs) fun _ _ _ h => h.2

theorem keeps_saved (env : Env) : Keeps (Inv L database config) (FrameOk L database)
    (fun _ => True) (save L env) fun _ _ => True :=
  keeps_save hvalid env fun _ _ _ _ => trivial

/-- An update that keeps the invariant, and a save. -/
theorem keeps_update_save {f : State → State} (env : Env)
    (hf : ∀ s, Inv L database config s → Inv L database config (f s)) :
    Keeps (Inv L database config) (FrameOk L database) (fun _ => True)
      (do update f; save L env : Action Unit) fun _ _ => True :=
  (keeps_update fun s hI _ => ⟨hf s hI, trivial⟩).bind fun _ => keeps_saved hvalid env

theorem keeps_pause (env : Env) : Keeps (Inv L database config) (FrameOk L database)
    (fun _ => True) (pause L config env) fun _ _ => True := by
  refine keeps_update_save hvalid env fun s hI => ?_
  have hjobs := hI.mapJobs (interrupt_address config "interrupted by shutdown")
    fun j _ hj => hj.interrupt _
  exact { hjobs with phase := by simp }

theorem keeps_retry (id : String) (env : Env) : Keeps (Inv L database config)
    (FrameOk L database) (fun _ => True) (retry L id env) fun _ _ => True := by
  refine keeps_get.bind fun s₀ => keeps_lift.bind fun queue => ?_
  refine Keeps.bind (Q := fun _ _ => True) ?_ fun _ => keeps_saved hvalid env
  refine keeps_update fun s hI hs => ⟨?_, trivial⟩
  obtain ⟨hqueue, rfl, -⟩ := hs
  refine hI.retry (maxAttempts_of_validate hvalid).1 id ?_
  cases hr : retryJob id s₀.queue with
  | none => rw [hr] at hqueue; cases hqueue
  | some next => rw [hr] at hqueue; cases hqueue; rfl

omit hvalid in
theorem keeps_beginPass (source : SyncState) : Keeps (Inv L database config)
    (FrameOk L database) (fun _ => True) (beginPass source) fun _ _ => True := by
  refine keeps_get.bind fun s₀ => keeps_lift.bind fun pass => ?_
  exact keeps_update fun s hI _ => ⟨{ hI with }, trivial⟩

omit hvalid in
theorem keeps_await {P : State → Prop} (env : Env) (i : Nat) : Keeps (Inv L database config)
    (FrameOk L database) P (await env i) fun _ s => P s :=
  keeps_ensure.weaken (fun _ _ h => h) fun _ _ _ h => h.2

omit hvalid in
theorem keeps_fallible {α : Type} {P : State → Prop} (result : Except String α) :
    Keeps (Inv L database config) (FrameOk L database) P (fallible result) fun a s =>
      result = .ok a ∧ P s := by
  refine keeps_lift.weaken (fun _ _ h => h) fun a s _ h => ⟨?_, h.2⟩
  cases result with
  | error e => cases h.1
  | ok b => rw [Except.ok.inj h.1]

/-- The rows of a page fit into the room that the queue had before. -/
theorem keeps_discoverRows (hL : L.Sound) (rows : List (Option String)) :
    Keeps (Inv L database config) (FrameOk L database)
      (fun s => s.queue.length + rows.length ≤ maxQueue) (rows.forM (discoverRow L))
      fun _ _ => True := by
  induction rows with
  | nil => exact keeps_pure fun _ _ _ => trivial
  | cons row rows ih =>
    refine Keeps.bind (Q := fun _ s => s.queue.length + rows.length ≤ maxQueue) ?_ fun _ => ih
    refine (keeps_fallible _).bind fun raw => (keeps_fallible _).bind fun address => ?_
    refine keeps_update fun s hI hs => ?_
    obtain ⟨haddress, -, hroom⟩ := hs
    rw [List.length_cons] at hroom
    refine ⟨hI.enqueue (maxAttempts_of_validate hvalid).1 (hL.address raw address haddress)
      (by omega), ?_⟩
    unfold State.enqueue
    dsimp only
    split
    · omega
    · rw [List.length_append]
      simp
      omega

theorem keeps_discover (hL : L.Sound) (source : SyncState) (env : Env) :
    Keeps (Inv L database config) (FrameOk L database) (fun _ => True)
      (discover L config source env) fun _ _ => True := by
  refine keeps_get.bind fun s₀ => (keeps_fallible _).bind fun scan => ?_
  refine Keeps.when (fun _ => ?_) fun _ _ _ _ => trivial
  refine (keeps_await env 2).bind fun _ => (keeps_fallible _).bind fun rows => ?_
  refine (keeps_await env 3).bind fun _ => (keeps_fallible _).bind fun after => ?_
  refine keeps_ensure.bind fun _ => ?_
  refine Keeps.bind (Q := fun _ _ => True) ?_ fun _ => ?_
  · refine (keeps_discoverRows hvalid hL _).weaken ?_ fun _ _ _ h => h
    rintro s hI ⟨-, -, -, -, rfl, -⟩
    have hqueue := hI.queue
    rw [List.length_take]
    omega
  · exact keeps_update_save hvalid env fun s hI => { hI with }

theorem keeps_resetBranch (source : SyncState) (env : Env) : Keeps (Inv L database config)
    (FrameOk L database) (fun _ => True) (resetBranch L source env) fun _ _ => True := by
  refine keeps_get.bind fun s₀ => ?_
  refine Keeps.bind (Q := fun _ _ => True) ?_ fun reset => ?_
  · unfold branchChanged
    split
    · exact keeps_pure fun _ _ _ => trivial
    · split
      · exact keeps_pure fun _ _ _ => trivial
      · refine (keeps_await env 1).bind fun _ => (keeps_fallible _).bind fun _ => ?_
        exact keeps_pure fun _ _ _ => trivial
  · refine Keeps.when (fun _ => ?_) fun _ _ _ _ => trivial
    refine Keeps.bind (Q := fun _ _ => True) ?_ fun _ => (keeps_beginPass source).bind fun _ => ?_
    · refine keeps_update fun s hI _ => ⟨?_, trivial⟩
      exact { hI with queue := Nat.zero_le _, addresses := List.nodup_nil, jobs := by simp }
    · exact keeps_update_save hvalid env fun s hI => { hI with }

theorem keeps_sweep (source : SyncState) (env : Env) : Keeps (Inv L database config)
    (FrameOk L database) (fun _ => True) (sweep L source env) fun _ _ => True := by
  refine keeps_get.bind fun s₀ => Keeps.when (fun _ => ?_) fun _ _ _ _ => trivial
  refine Keeps.bind (Q := fun _ _ => True) ?_ fun _ => keeps_saved hvalid env
  exact (keeps_beginPass source).weaken (fun _ _ _ => trivial) fun _ _ _ h => h

theorem keeps_heartbeat (env : Env) (n : Nat) : Keeps (Inv L database config)
    (FrameOk L database) (fun _ => True) (heartbeat L env n) fun _ _ => True := by
  induction n with
  | zero => exact keeps_pure fun _ _ _ => trivial
  | succ n ih => exact (keeps_saved hvalid env).bind fun _ => ih

theorem keeps_runJob (index : Nat) (env : Env) : Keeps (Inv L database config)
    (FrameOk L database) (fun s => s.due env.due = some index) (runJob L config index env)
    fun _ _ => True := by
  refine Keeps.bind (Q := fun _ _ => True) ?_ fun _ => ?_
  · exact keeps_update fun s hI hdue => ⟨hI.start hdue, trivial⟩
  refine (keeps_saved hvalid env).bind fun _ => (keeps_heartbeat hvalid env _).bind fun _ => ?_
  refine (keeps_await env 4).bind fun _ => ?_
  refine Keeps.bind (Q := fun _ _ => True) ?_ fun _ => (keeps_saved hvalid env).bind fun _ => ?_
  · exact keeps_update fun s hI _ => ⟨hI.finish index env.analysis env.finished, trivial⟩
  · exact keeps_pure fun _ _ _ => trivial

theorem keeps_runDue (env : Env) : Keeps (Inv L database config) (FrameOk L database)
    (fun _ => True) (runDue L config env) fun _ _ => True := by
  refine keeps_get.bind fun s₀ => ?_
  cases hdue : s₀.due env.due with
  | some index =>
    refine (keeps_runJob hvalid index env).weaken ?_ fun _ _ _ h => h
    rintro s - ⟨rfl, -⟩
    exact hdue
  | none =>
    refine Keeps.bind (Q := fun _ _ => True) ?_ fun _ => (keeps_saved hvalid env).bind fun _ => ?_
    · refine keeps_update fun s hI _ => ⟨{ hI with phase := ?_ }, trivial⟩
      unfold State.rest
      dsimp only
      split
      · simp
      · split <;> simp
    · exact keeps_pure fun _ _ _ => trivial

theorem keeps_cycleInner (hL : L.Sound) (env : Env) : Keeps (Inv L database config)
    (FrameOk L database) (fun _ => True) (cycleInner L config env) fun _ _ => True := by
  refine (keeps_await env 0).bind fun _ => (keeps_fallible _).bind fun source => ?_
  split
  · refine Keeps.bind (Q := fun _ _ => True) ?_ fun _ => (keeps_saved hvalid env).bind fun _ => ?_
    · exact keeps_update fun s hI _ => ⟨{ hI with phase := by simp }, trivial⟩
    · exact keeps_pure fun _ _ _ => trivial
  · refine Keeps.bind (Q := fun _ _ => True) ?_ fun _ => (keeps_sweep hvalid source env).bind fun _ => ?_
    · exact (keeps_resetBranch hvalid source env).weaken (fun _ _ _ => trivial) fun _ _ _ h => h
    refine keeps_get.bind fun s₀ => ?_
    refine Keeps.bind (Q := fun _ _ => True) ?_ fun _ => keeps_runDue hvalid env
    refine Keeps.when (fun _ => ?_) fun _ _ _ _ => trivial
    exact (keeps_discover hvalid hL source env).weaken (fun _ _ _ => trivial) fun _ _ _ h => h

theorem keeps_cycle (hL : L.Sound) (name : String) (env : Env) : Keeps (Inv L database config)
    (FrameOk L database) (fun _ => True) (cycle L config name env) fun _ _ => True := by
  refine keeps_get.bind fun s₀ => keeps_ensure.bind fun _ => ?_
  refine ((keeps_cycleInner hvalid hL env).onError ?_).weaken (fun _ _ _ => trivial) fun _ _ _ h => h
  intro stop
  cases stop with
  | error message => exact keeps_update_save hvalid env fun s hI => { hI with phase := by simp }
  | cancelled => exact keeps_pure fun _ _ _ => trivial

end

/-! ## Starting again -/

section
variable {L : Library} {database : String}

/-- A loaded state goes on under any configuration: the queue survives only where
the limit of attempts is the same. -/
theorem Inv.resume (hL : L.Sound) {old config : Config} {s : State}
    (h : Inv L database old s) : Inv L database config (s.resume L config) := by
  unfold State.resume
  by_cases hsame : s.definitionHash = config.hash L
  · have hmax := hL.config _ _ (h.definitionHash.symm.trans hsame)
    rw [if_pos hsame]
    have hjobs : ∀ j ∈ s.queue, JobOk L config j := by
      intro j hj
      have hold := h.jobs j hj
      exact ⟨hold.address, hold.status, hmax ▸ hold.attempts, hmax ▸ hold.unused, hold.id⟩
    have hs : Inv L database config s :=
      { h with definitionHash := hsame, jobs := hjobs }
    have hmapped := hs.mapJobs (interrupt_address config
      "interrupted attempt; publication must be revalidated") fun j _ hj => hj.interrupt _
    exact { hmapped with phase := by simp }
  · rw [if_neg hsame]
    exact { h with
      definition := rfl, definitionHash := rfl, phase := by simp, queue := Nat.zero_le _
      addresses := List.nodup_nil, jobs := by simp }

theorem Inv.new (config : Config) : Inv L database config (.new L database config) where
  contract := rfl
  networkId := rfl
  database := rfl
  definition := rfl
  definitionHash := rfl
  phase := by simp [State.new]
  recent := Nat.zero_le _
  queue := Nat.zero_le _
  addresses := List.nodup_nil
  jobs := by simp [State.new]

theorem openWorker_good (hL : L.Sound) {config : Config} {file : Option Value} {env : Env}
    {o : Outcome State Value Stop Unit} (hfile : ∀ f, file = some f → FrameOk L database f)
    (h : openWorker L database config file env = .ok o) :
    config.validate = .ok () ∧
      o.Good (Inv L database config) (FrameOk L database) fun _ _ => True := by
  unfold openWorker at h
  obtain ⟨_, hvalid, h⟩ := bind_ok h
  obtain ⟨loaded, hload, h⟩ := bind_ok h
  cases h
  refine ⟨hvalid, keeps_saved hvalid env _ ?_ trivial⟩
  cases file with
  | none =>
    unfold load at hload
    obtain ⟨_, -, hload⟩ := bind_ok hload
    cases hload
    exact (Inv.new config).resume hL
  | some f =>
    obtain ⟨old, state, hold, hinv, rfl, hsize, hdatabase⟩ := hfile f rfl
    rw [load_frame hL hold hinv hsize hdatabase] at hload
    cases hload
    exact hinv.resume hL

/-! ## Runs -/

structure SystemOk (L : Library) (database : String) (system : System) : Prop where
  files : ∀ directory file, system.files directory = some file → FrameOk L database file
  worker : ∀ config state, system.worker = some (config, state) →
    config.validate = .ok () ∧ Inv L database config state

theorem saves_ok {system : System} (h : SystemOk L database system) {directory : String}
    {saved : List Value} (hsaved : ∀ frame ∈ saved, FrameOk L database frame) :
    ∀ d file, system.saves directory saved d = some file → FrameOk L database file := by
  intro d file hfile
  unfold System.saves at hfile
  split at hfile
  · cases hlast : saved.getLast? with
    | none =>
      rw [hlast] at hfile
      exact h.files d file hfile
    | some frame =>
      rw [hlast] at hfile
      cases hfile
      exact hsaved _ (List.mem_of_getLast? hlast)
  · exact h.files d file hfile

theorem command_good (hL : L.Sound) {config : Config} {state : State}
    (hvalid : config.validate = .ok ()) (hinv : Inv L database config state) (command : Command)
    (env : Env) : (command.run L config env state).Good (Inv L database config)
      (FrameOk L database) fun _ _ => True := by
  cases command with
  | cycle name =>
    obtain ⟨hstate, hsaved, -⟩ := keeps_cycle hvalid hL name env state hinv trivial
    exact ⟨hstate, hsaved, fun _ _ => trivial⟩
  | pause => exact keeps_pause hvalid env state hinv trivial
  | retry id => exact keeps_retry hvalid id env state hinv trivial

theorem step_ok (hL : L.Sound) {a b : System} (h : Step L database a b)
    (ha : SystemOk L database a) : SystemOk L database b := by
  cases h with
  | started _ hopen =>
    obtain ⟨hvalid, hstate, hsaved, -⟩ := openWorker_good hL (ha.files _) hopen
    refine ⟨saves_ok ha hsaved, fun config state hworker => ?_⟩
    simp only at hworker
    split at hworker
    · cases hworker
      exact ⟨hvalid, hstate⟩
    · cases hworker
  | crashedAtStart _ hopen hpre =>
    obtain ⟨-, -, hsaved, -⟩ := openWorker_good hL (ha.files _) hopen
    exact ⟨saves_ok ha fun f hf => hsaved f (hpre.subset hf), by rintro _ _ ⟨⟩⟩
  | ran command env hworker =>
    obtain ⟨hvalid, hinv⟩ := ha.worker _ _ hworker
    obtain ⟨hstate, hsaved, -⟩ := command_good hL hvalid hinv command env
    refine ⟨saves_ok ha hsaved, ?_⟩
    rintro _ _ ⟨⟩
    exact ⟨hvalid, hstate⟩
  | crashed command env hworker hpre =>
    obtain ⟨hvalid, hinv⟩ := ha.worker _ _ hworker
    obtain ⟨-, hsaved, -⟩ := command_good hL hvalid hinv command env
    exact ⟨saves_ok ha fun f hf => hsaved f (hpre.subset hf), by rintro _ _ ⟨⟩⟩

/-- The limits of a queue under a configuration. -/
structure Bounded (config : Config) (s : State) : Prop where
  addresses : (s.queue.map (·.address)).Nodup
  ids : (s.queue.map (·.id)).Nodup
  queue : s.queue.length ≤ 128
  recent : s.recent.length ≤ 16
  attempts : ∀ j ∈ s.queue, j.attempts ≤ config.maxAttempts
  exhausted : ∀ j ∈ s.queue, j.attempts = config.maxAttempts →
    j.status = "failed" ∨ j.status = "running"

theorem Inv.bounded (hL : L.Sound) {config : Config} {s : State}
    (h : Inv L database config s) : Bounded config s where
  addresses := h.addresses
  ids := ids_nodup hL h.addresses h.jobs
  queue := h.queue
  recent := h.recent
  attempts j hj := (h.jobs j hj).attempts
  exhausted j hj hfull := by
    have hok := h.jobs j hj
    have hstatus := hok.status
    have hunused := hok.unused
    simp only [List.mem_cons, List.not_mem_nil, or_false] at hstatus hunused
    rcases hstatus with hs | hs | hs | hs
    · have := hunused (.inl hs)
      omega
    · exact .inr hs
    · have := hunused (.inr hs)
      omega
    · exact .inl hs

end

/-! ## A run -/

def readString (value : Value) : Except String String :=
  AmlReal.Foundations.Checks.context value.asStr "string expected"

def readNat : Value → Except String Nat
  | .number (.natural n) => .ok n
  | _ => .error "number expected"

def readBool : Value → Except String Bool
  | .bool b => .ok b
  | _ => .error "boolean expected"

def readArray (value : Value) : Except String (List Value) :=
  AmlReal.Foundations.Checks.context value.asArray "array expected"

def writeJob (j : Job) : Value := .object [("id", .string j.id), ("address", .string j.address),
  ("status", .string j.status), ("attempts", .ofNat j.attempts),
  ("next_attempt_unix_ms", .ofNat j.nextAttemptUnixMs), ("last_error", .string j.lastError)]

def readJob (value : Value) : Except String Job := do
  pure ⟨← readString value["id"], ← readString value["address"], ← readString value["status"],
    ← readNat value["attempts"], ← readNat value["next_attempt_unix_ms"],
    ← readString value["last_error"]⟩

def writeScan : Option Scan → Value
  | none => .null
  | some scan => .object [("height", .ofNat scan.height), ("hash", .string scan.hash),
    ("start", .ofNat scan.start), ("after_address", .string scan.afterAddress),
    ("exhausted", .bool scan.exhausted)]

def readScan (value : Value) : Except String (Option Scan) :=
  if value = .null then .ok none
  else do
    pure (some ⟨← readNat value["height"], ← readString value["hash"], ← readNat value["start"],
      ← readString value["after_address"], ← readBool value["exhausted"]⟩)

def writeState (s : State) : Value := .object [("contract", .string s.contract),
  ("network_id", .string s.networkId), ("database", .string s.database),
  ("definition", s.definition), ("definition_hash", .string s.definitionHash),
  ("generation", .ofNat s.generation), ("pass", .ofNat s.pass), ("phase", .string s.phase),
  ("reason", .string s.reason), ("heartbeat_unix_ms", .ofNat s.heartbeatUnixMs),
  ("next_sweep_unix_ms", .ofNat s.nextSweepUnixMs), ("scan", writeScan s.scan),
  ("queue", .array (s.queue.map writeJob)), ("recent", .array s.recent),
  ("succeeded", .ofNat s.succeeded), ("failures", .ofNat s.failures),
  ("abandoned", .ofNat s.abandoned)]

def readState (value : Value) : Except String State := do
  let jobs ← readArray value["queue"]
  let queue ← jobs.mapM readJob
  pure ⟨← readString value["contract"], ← readString value["network_id"],
    ← readString value["database"], value["definition"], ← readString value["definition_hash"],
    ← readNat value["generation"], ← readNat value["pass"], ← readString value["phase"],
    ← readString value["reason"], ← readNat value["heartbeat_unix_ms"],
    ← readNat value["next_sweep_unix_ms"], ← readScan value["scan"], queue,
    ← readArray value["recent"], ← readNat value["succeeded"], ← readNat value["failures"],
    ← readNat value["abandoned"]⟩

/-- A library whose digest reads off what tells configurations and jobs apart. -/
def sampleLibrary : Library where
  digest
    | .array [_, _, _, .string address] => address
    | value => match value["max_attempts"] with
      | .number (.natural n) => n.repr
      | _ => ""
  address := .ok
  toValue := writeState
  fromValue := readState
  size _ := 1000
  semanticConfig := .null
  clusterConfig := .null
  riskPolicy := .null

def sampleConfig : Config := ⟨"/state", 10, 5, 300, 120, 30, 1⟩

/-- One block, one address, and an analysis that fails. -/
def sampleEnv : Env where
  clock _ := 1000
  fault _ := .none
  cancelled := none
  source := .ok ⟨1, 5, 5, "hash", 7⟩
  blockHash := .ok (some "hash")
  addresses := .ok [some "address"]
  sourceAfter := .ok ⟨1, 5, 5, "hash", 7⟩
  now := 1000
  due := 1000
  heartbeats := 0
  analysis := .error "deadline"
  finished := 1000

def sampleOpened : State :=
  (State.new sampleLibrary "aml" sampleConfig).resume sampleLibrary sampleConfig

def sampleStarted : Outcome State Value Stop Unit := save sampleLibrary sampleEnv sampleOpened

def sampleFinished : Outcome State Value Stop Unit :=
  (Command.cycle "aml").run sampleLibrary sampleConfig sampleEnv sampleStarted.state

def sampleRunning : System :=
  ⟨System.init.saves "/state" sampleStarted.saved, some (sampleConfig, sampleStarted.state)⟩

/-- The system after a crash that follows the saves of the first cycle. -/
def sampleSystem : System := ⟨sampleRunning.saves "/state" sampleFinished.saved, none⟩

end AmlReal.Bitcoin.AnalyticsRecovery
