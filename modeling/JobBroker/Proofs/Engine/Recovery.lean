import JobBroker.Engine.Recovery
import JobBroker.Proofs.Engine.Durability
import JobBroker.Proofs.Engine.Handles
import JobBroker.Store.Faulty

/-!
# Recovery

An engine that starts over the store of another takes its live jobs up.

* `Keeps.restoreAll` : the jobs of a list with different keys are all restored, each to its queue.
* `readRecords_memory` : the records of a store in memory are all read.
* `recovered_run` : after a run over a store in memory, an engine that loads that store has the same
  live jobs as the one that is gone, all queued, and gives out none of their handles.
-/

namespace JobBroker

open Text (decimal)

open Function (update update_apply)

/-! ### Lists of changes to a map -/

section Updates

variable {α κ β : Type} [DecidableEq κ] {key : α → κ} (val : α → β) {as : List α}

theorem foldl_update_of_ne {k : κ} (h : ∀ a ∈ as, key a ≠ k) (m : κ → β) :
    as.foldl (fun m a => update m (key a) (val a)) m k = m k := by
  induction as generalizing m with
  | nil => rfl
  | cons a as ih =>
    rw [List.foldl_cons, ih fun b hb => h b (List.mem_cons_of_mem a hb)]
    exact Function.update_of_ne (h a List.mem_cons_self).symm _ m

theorem foldl_update_of_mem (hnodup : (as.map key).Nodup) {a : α} (ha : a ∈ as) (m : κ → β) :
    as.foldl (fun m a => update m (key a) (val a)) m (key a) = val a := by
  induction as generalizing m with
  | nil => exact absurd ha List.not_mem_nil
  | cons b bs ih =>
    obtain ⟨hb, hbs⟩ := List.nodup_cons.mp hnodup
    rw [List.foldl_cons]
    rcases List.mem_cons.mp ha with rfl | ha
    · rw [foldl_update_of_ne val fun c hc h => hb (List.mem_map.mpr ⟨c, hc, h⟩)]
      exact Function.update_self _ _ m
    · exact ih hbs ha _

end Updates

/-! ### Jobs that are restored -/

namespace Ledger

/-- A job from the store is live again and queued. -/
def restore (l : Ledger) (j : Job) : Ledger :=
  { l with
    jobs := update l.jobs j.key (some ⟨j.renewed, none⟩)
    keys := update l.keys j.handle (some j.key)
    queued := update l.queued j.key (some j.summary) }

theorem foldl_restore (js : List Job) (l : Ledger) :
    js.foldl restore l =
      { l with
        jobs := js.foldl (fun m j => update m j.key (some ⟨j.renewed, none⟩)) l.jobs
        keys := js.foldl (fun m j => update m j.handle (some j.key)) l.keys
        queued := js.foldl (fun m j => update m j.key (some j.summary)) l.queued } := by
  induction js generalizing l with
  | nil => rfl
  | cons j js ih => exact ih (l.restore j)

end Ledger

namespace Engine

variable {σ : Type} {e : Engine σ} {l : Ledger}

/-- A job that has a handle keeps it. -/
theorem restore_of_handle {j : Job} (hh : j.handle ≠ "") (e : Engine σ) : e.restore j =
    let e₁ := e.establish j.functionName
    let (queued, queue) := (e₁.workshop j.functionName).queue.reinstate j.summary
    if queued then (true, { e₁.setQueue j.functionName queue with
      live := e₁.live.insert j.renewed none })
    else (false, e₁) := by
  simp only [Engine.restore, hh, if_false]
  rfl

theorem Keeps.restore (hk : e.Keeps l) {j : Job} (hh : j.handle ≠ "")
    (hnew : l.queued j.key = none) :
    (e.restore j).1 = true ∧ (e.restore j).2.Keeps (l.restore j) := by
  have hf := isSome_establish e j.functionName
  have hk := hk.quiet (.establish e j.functionName)
  have hfind : ((e.establish j.functionName).workshop j.functionName).queue.find?
      j.summary.uniqueId = none := by
    rw [hk.queued_eq] at hnew
    exact hnew
  have hqueued := hk.setQueue hf (Queue.accept_inOrder (hk.inOrder _) hfind)
    fun v => Queue.find?_accept _ _ v
  simp only [restore_of_handle hh, Queue.reinstate_of_find?_eq_none hfind, if_true, true_and]
  exact hqueued.insertLive (j := j.renewed) ((isSome_modifyWorkshop ..).trans hf) none

theorem store_restoreAll (js : List Job) (e : Engine σ) : (e.restoreAll js).2.store = e.store := by
  induction js generalizing e with
  | nil => rfl
  | cons j js ih =>
    have hrestore : (e.restore j).2.store = e.store := by
      unfold restore
      dsimp only
      split <;> split <;> rfl
    exact (ih _).trans hrestore

theorem Keeps.restoreAll {js : List Job} (hk : e.Keeps l) (hnodup : (js.map Job.key).Nodup)
    (hh : ∀ j ∈ js, j.handle ≠ "") (hnew : ∀ j ∈ js, l.queued j.key = none) :
    (e.restoreAll js).1 = js.length ∧ (e.restoreAll js).2.Keeps (js.foldl Ledger.restore l) := by
  induction js generalizing e l with
  | nil => exact ⟨rfl, hk⟩
  | cons j js ih =>
    obtain ⟨hj, hjs⟩ := List.nodup_cons.mp hnodup
    obtain ⟨hrestored, hk⟩ := hk.restore (hh j List.mem_cons_self) (hnew j List.mem_cons_self)
    obtain ⟨hcount, hk⟩ := ih hk hjs (fun i hi => hh i (List.mem_cons_of_mem j hi)) fun i hi => by
      have hne : i.key ≠ j.key := fun h => hj (h ▸ List.mem_map_of_mem hi)
      exact (Function.update_of_ne hne _ _).trans (hnew i (List.mem_cons_of_mem j hi))
    simp only [Engine.restoreAll, hrestored, hcount, List.length_cons, if_true, true_and]
    exact hk

theorem Keeps.withHandles (hk : e.Keeps l) (handles : HandleFactory) :
    Keeps { e with handles } { l with host := handles.host, last := handles.last } :=
  { hk with
    host_eq := rfl
    last_eq := rfl }

/-! ### Handles that are given out on the way -/

theorem handles_restore (e : Engine σ) (j : Job) :
    (e.restore j).2.handles = if j.handle = "" then e.handles.next.2 else e.handles := by
  unfold Engine.restore
  dsimp only
  split <;> split <;> rfl

/-- The handles that the restored jobs without one are given. -/
def restoredHandles (e : Engine σ) : List Job → List String
  | [] => []
  | j :: js =>
    (if j.handle = "" then [e.handles.next.1] else []) ++ (e.restore j).2.restoredHandles js

/-- A handle that was passed is given to no job that is restored, and stays passed. -/
theorem passed_restoreAll {handle : String} (js : List Job) (hp : e.handles.Passed handle)
    (hroom : e.handles.last.toNat + (e.restoredHandles js).length < UInt64.size) :
    handle ∉ e.restoredHandles js ∧ (e.restoreAll js).2.handles.Passed handle ∧
      (e.restoreAll js).2.handles.last.toNat =
        e.handles.last.toNat + (e.restoredHandles js).length := by
  induction js generalizing e with
  | nil => exact ⟨List.not_mem_nil, hp, rfl⟩
  | cons j js ih =>
    have hnext := handles_restore e j
    show handle ∉ e.restoredHandles (j :: js) ∧
      ((e.restore j).2.restoreAll js).2.handles.Passed handle ∧
        ((e.restore j).2.restoreAll js).2.handles.last.toNat = _
    unfold restoredHandles at hroom ⊢
    split at hnext
    · next hj =>
      rw [if_pos hj, List.singleton_append, List.length_cons] at hroom ⊢
      have hlast := HandleFactory.last_next (f := e.handles) (by omega)
      obtain ⟨hnot, hpassed, hcount⟩ := ih (hnext ▸ hp.next (by omega)) (by rw [hnext]; omega)
      rw [List.mem_cons, not_or]
      exact ⟨⟨hp.ne_next (by omega), hnot⟩, hpassed, by rw [hcount, hnext]; omega⟩
    · next hj =>
      rw [if_neg hj, List.nil_append] at hroom ⊢
      obtain ⟨hnot, hpassed, hcount⟩ := ih (hnext ▸ hp) (by rw [hnext]; omega)
      exact ⟨hnot, hpassed, by rw [hcount, hnext]⟩

theorem restoredHandles_eq_nil {js : List Job} (hh : ∀ j ∈ js, j.handle ≠ "") (e : Engine σ) :
    e.restoredHandles js = [] := by
  induction js generalizing e with
  | nil => rfl
  | cons j js ih =>
    rw [restoredHandles, if_neg (hh j List.mem_cons_self), List.nil_append]
    exact ih (fun i hi => hh i (List.mem_cons_of_mem j hi)) _

/-! ### Records that are read -/

variable [JobStore σ]

/-- Reading changes the store only, and makes the factory observe what was read. -/
theorem readRecords_snd (qs : List QueuedJob) (e : Engine σ) :
    ∃ store, (e.readRecords qs).2 =
      { e with store, handles := e.handles.observeAll (e.readRecords qs).1 } := by
  induction qs generalizing e with
  | nil => exact ⟨e.store, rfl⟩
  | cons q qs ih =>
    unfold readRecords
    split
    · next j store _ => exact ih { e with store, handles := e.handles.observe j.handle }
    · next store _ _ => exact ih { e with store }

theorem readRecords_memory (qs : List QueuedJob) (e : Engine MemoryStore) :
    e.readRecords qs = (qs.filterMap (e.store.find? ·.key),
      { e with handles := e.handles.observeAll (qs.filterMap (e.store.find? ·.key)) }) := by
  induction qs generalizing e with
  | nil => rfl
  | cons q qs ih =>
    have hfind : JobStore.find q.key e.store = (.ok (e.store.find? q.key), e.store) := rfl
    unfold readRecords
    rw [hfind]
    cases hq : e.store.find? q.key with
    | none => simp [hq, ih]
    | some j => simp [hq, ih, HandleFactory.observeAll]

/-- The records that a load reads, and the engine that has read them. -/
def loaded (e : Engine σ) : List Job × Engine σ :=
  match JobStore.readAll e.store with
  | (.error _, store) => ([], { e with store })
  | (.ok queued, store) => { e with store }.readRecords queued

/-- The handles that a load gives out. -/
def loadHandles (e : Engine σ) : List String := e.loaded.2.restoredHandles e.loaded.1

theorem load_snd (e : Engine σ) : e.load.2 = (e.loaded.2.restoreAll e.loaded.1).2 := by
  rcases h : JobStore.readAll e.store with ⟨err | queued, store⟩ <;> simp only [load, loaded, h]
  rfl

theorem passed_loaded {e : Engine σ} {j : Job} (hj : j ∈ e.loaded.1) :
    e.loaded.2.handles.Passed j.handle := by
  unfold loaded at hj ⊢
  split at hj
  · exact absurd hj List.not_mem_nil
  · next queued store _ =>
    obtain ⟨store', h⟩ := readRecords_snd queued { e with store }
    rw [h]
    exact HandleFactory.passed_observeAll _ hj

/-- A handle that was passed when the records were read is given out neither by the load nor
afterwards, while the handles do not run out. -/
theorem not_mem_of_passed {e : Engine σ} {handle : String}
    (hp : e.loaded.2.handles.Passed handle) {as : List (Action σ)}
    (hroom : e.loaded.2.handles.last.toNat + e.loadHandles.length + e.load.2.issued as <
      UInt64.size) : handle ∉ e.loadHandles ++ e.load.2.issuedHandles as := by
  obtain ⟨hnot, hpassed, hlast⟩ := passed_restoreAll e.loaded.1 hp
    (by rw [loadHandles] at hroom; omega)
  rw [← load_snd] at hpassed hlast
  rw [List.mem_append, not_or]
  exact ⟨hnot, not_mem_issuedHandles hpassed (by rw [hlast]; exact hroom)⟩

/-- The handles of the records that a load has read are never given out again, whatever else is in
the store and whatever is done afterwards. -/
theorem not_reissued {e : Engine σ} {as : List (Action σ)}
    (hroom : e.loaded.2.handles.last.toNat + e.loadHandles.length + e.load.2.issued as <
      UInt64.size) :
    ∀ j ∈ e.loaded.1, j.handle ∉ e.loadHandles ++ e.load.2.issuedHandles as :=
  fun _ hj => not_mem_of_passed (passed_loaded hj) hroom

/-- One record is read, another has no handle and a third cannot be read. -/
theorem not_reissued_one_unread :
    ∃ (store : FaultyStore MemoryStore) (as : List (Action (FaultyStore MemoryStore))),
      let e := start .default store 0 decimal false
      e.loaded.1.map Job.handle = ["H:localhost:7", ""] ∧
        e.loadHandles ++ e.load.2.issuedHandles as = ["H:localhost:8", "H:localhost:9"] ∧
        ∀ j ∈ e.loaded.1, j.handle ∉ e.loadHandles ++ e.load.2.issuedHandles as := by
  refine ⟨⟨((MemoryStore.empty.insert { Job.new "f" "u" [] with handle := "H:localhost:7" }).insert
      (.new "f" "v" [])).insert { Job.new "f" "w" [] with handle := "H:localhost:9" },
    { Faults.none with find := fun k => if k.uniqueId = "w" then some .refuse else none }⟩,
    [.submit (.new "f" "x" []) none], ?_, ?_, not_reissued ?_⟩ <;> decide +kernel

/-- The handle of a record that could not be read is given out again. -/
theorem reissued_unread :
    ∃ (store : FaultyStore MemoryStore) (j : Job) (as : List (Action (FaultyStore MemoryStore))),
      store.store.find? j.key = some j ∧
        (start .default store 0 decimal false).load.1 = .ok 0 ∧
        j.handle ∈ (start .default store 0 decimal false).load.2.issuedHandles as := by
  refine ⟨⟨MemoryStore.empty.insert { Job.new "f" "u" [] with handle := "H:localhost:1" },
    { Faults.none with find := fun _ => some .refuse }⟩,
    { Job.new "f" "u" [] with handle := "H:localhost:1" },
    [.submit (.new "f" "v" []) none], ?_, ?_, ?_⟩ <;> decide +kernel

/-- All records of a store in memory are read. -/
theorem loaded_memory {e : Engine MemoryStore}
    (he : ∀ {k j}, e.store.find? k = some j → j.key = k) :
    e.loaded = (e.store.toList,
      { e with handles := e.handles.observeAll e.store.toList }) := by
  have hread : (e.store.toList.map Job.summary).filterMap (e.store.find? ·.key) =
      e.store.toList := by
    rw [List.filterMap_map]
    refine (List.filterMap_congr fun j hj => ?_).trans List.filterMap_some
    exact (MemoryStore.mem_toList he).mp hj
  have hall : JobStore.readAll e.store = (.ok (e.store.toList.map Job.summary), e.store) := rfl
  simp only [loaded, hall, readRecords_memory, hread]

/-! ### The store of an engine that is gone -/

section Stored

variable {e : Engine MemoryStore}

theorem key_eq_of_stored (hs : e.core.Sound) {k : JobKey} {j : Job}
    (h : e.store.find? k = some j) : j.key = k :=
  hs.keeping.key_eq h

theorem find?_stored (hs : e.core.Sound) : e.store.find? = e.live.held :=
  hs.keeping.eq_of_not_hasErred id

/-- The store holds the live jobs, as they were before anybody worked on them. -/
theorem mem_stored (hs : e.core.Sound) {j : Job} : j ∈ e.store.toList ↔
    ∃ live, e.live.find? j.key = some live ∧ live.job.renewed = j := by
  rw [MemoryStore.mem_toList (key_eq_of_stored hs), find?_stored hs]
  exact Option.map_eq_some_iff

theorem renewed_mem_stored (hs : e.core.Sound) {k : JobKey} {live : LiveJob}
    (hlive : e.live.find? k = some live) :
    live.job.renewed.key = k ∧ live.job.renewed ∈ e.store.toList := by
  obtain rfl : live.job.renewed.key = k :=
    key_eq_of_stored hs ((durable_of_sound hs).record_of_live hlive)
  exact ⟨rfl, (mem_stored hs).mpr ⟨live, hlive, rfl⟩⟩

theorem length_stored (hs : e.core.Sound) : e.store.toList.length = e.live.size := by
  have hperm : (e.store.toList.map Job.key).Perm e.live.jobs.keys := by
    refine (List.perm_ext_iff_of_nodup (MemoryStore.nodup_keys_toList (key_eq_of_stored hs))
      e.live.jobs.nodup).mpr fun k => ?_
    rw [← Table.keys, Table.mem_keys, List.mem_map]
    constructor
    · rintro ⟨j, hj, rfl⟩
      obtain ⟨live, hlive, -⟩ := (mem_stored hs).mp hj
      exact ⟨live, hlive⟩
    · rintro ⟨live, hlive⟩
      obtain ⟨hkey, hmem⟩ := renewed_mem_stored hs hlive
      exact ⟨live.job.renewed, hmem, hkey⟩
  simpa [Table.keys, LiveJobs.size, Table.size] using hperm.length_eq

variable (hn : e.core.Numbered) (hs : e.core.Sound)
include hn hs

/-- Each record has a handle that the engine has given out. -/
theorem issued_of_stored {j : Job} (hj : j ∈ e.store.toList) :
    ∃ n, n ≤ e.handles.last ∧ j.handle = Handle.render e.handles.host n := by
  rw [MemoryStore.mem_toList (key_eq_of_stored hs), find?_stored hs] at hj
  exact hn.issued hj

theorem handle_ne_empty_of_stored {j : Job} (hj : j ∈ e.store.toList) : j.handle ≠ "" := by
  obtain ⟨n, -, hrender⟩ := issued_of_stored hn hs hj
  exact hrender ▸ Handle.render_ne_empty _ n

theorem nodup_handles_stored : (e.store.toList.map Job.handle).Nodup := by
  have hkeys := MemoryStore.nodup_keys_toList (key_eq_of_stored hs)
  refine hkeys.of_map.map_on fun j hj i hi h => ?_
  rw [MemoryStore.mem_toList (key_eq_of_stored hs), find?_stored hs] at hj hi
  rw [hn.key_inj hj hi h] at hj
  exact Option.some.inj (hj.symm.trans hi)

/-- The highest number that is observed in a store is one that its engine has given out. -/
theorem last_observed_le (host : String) :
    ((HandleFactory.new host).observeAll e.store.toList).last ≤ e.handles.last := by
  refine HandleFactory.last_observeAll_le (UInt64.le_iff_toNat_le.mpr (Nat.zero_le _)) ?_
  intro j hj host' m hm
  obtain ⟨n, hle, hrender⟩ := issued_of_stored hn hs hj
  rw [hrender, Handle.parse?_render] at hm
  obtain rfl : n = m := congrArg Prod.snd (Option.some.inj hm)
  exact hle

end Stored

/-! ### A run and the engine after it -/

/-- What an engine `e'` that has loaded the store of an engine `e` has taken up, and its answer. -/
structure Recovered (e : Engine MemoryStore) (answer : Except JobError Nat)
    (e' : Engine MemoryStore) : Prop where
  answer_eq : answer = .ok e.live.size
  store_eq : e'.store = e.store
  /-- The same jobs are live, and nobody has worked on them. -/
  find?_eq : ∀ k, e'.live.find? k =
    (e.live.find? k).map fun live => ⟨live.job.renewed, none⟩
  ofHandle?_eq : ∀ {k live}, e.live.find? k = some live →
    e'.live.ofHandle? live.job.handle = some ⟨live.job.renewed, none⟩
  queued_eq : ∀ k, e'.queued k = (e.live.find? k).map fun live => live.job.summary
  inOrder : ∀ f, (e'.workshop f).queue.InOrder
  waiters_eq : ∀ k, e'.waiters k = []

section Successor

variable {e : Engine MemoryStore} (hn : e.core.Numbered) (hs : e.core.Sound)
  (settings : EngineSettings) (now : Int64) (newId : Nat → String) (isLinked : Bool)
include hn hs

/-- An engine that has just started, with whatever handles, restores all of them. -/
theorem recovered_restoreAll (handles : HandleFactory) :
    let answer :=
      { start settings e.store now newId isLinked with handles }.restoreAll e.store.toList
    e.Recovered (.ok answer.1) answer.2 := by
  have hkeys := MemoryStore.nodup_keys_toList (key_eq_of_stored hs)
  -- the keys differ, so no record gets into the way of another one
  obtain ⟨hcount, hk⟩ := ((start_inOrder settings e.store now newId isLinked).keeps.withHandles
    handles).restoreAll hkeys (fun j hj => handle_ne_empty_of_stored hn hs hj) fun _ _ => rfl
  rw [Ledger.foldl_restore] at hk
  have hread : ∀ {β : Type} (val : Job → β) (k : JobKey),
      e.store.toList.foldl (fun (m : JobKey → Option β) j => update m j.key (some (val j)))
        (fun _ => none) k = (e.live.find? k).map fun live => val live.job.renewed := by
    intro β val k
    cases hlive : e.live.find? k with
    | none =>
      refine foldl_update_of_ne (fun j => some (val j)) (fun j hj h => ?_) _
      obtain ⟨live, hj, -⟩ := (mem_stored hs).mp hj
      rw [h, hlive] at hj
      exact absurd hj (by simp)
    | some live =>
      obtain ⟨rfl, hj⟩ := renewed_mem_stored hs hlive
      exact foldl_update_of_mem (fun j => some (val j)) hkeys hj _
  have hfind := fun k => (congrFun hk.jobs_eq k).symm.trans (hread _ k)
  exact {
    answer_eq := congrArg Except.ok (hcount.trans (length_stored hs))
    store_eq := store_restoreAll e.store.toList _
    find?_eq := hfind
    ofHandle?_eq := by
      intro k live hlive
      -- the handles differ too, so none leads to a job that was restored later
      obtain ⟨rfl, hj⟩ := renewed_mem_stored hs hlive
      have hkey := (congrFun hk.keys_eq live.job.handle).symm.trans
        (foldl_update_of_mem (fun j : Job => some j.key) (nodup_handles_stored hn hs) hj _)
      rw [LiveJobs.ofHandle?, hkey, Option.bind_eq_bind, Option.bind_some, hfind, hlive]
      rfl
    queued_eq := fun k => (congrFun hk.queued_eq k).symm.trans (hread Job.summary k)
    inOrder := hk.inOrder
    waiters_eq := fun k => (congrFun hk.waiters_eq k).symm }

theorem recovered_load :
    let e' := start settings e.store now newId isLinked
    e.Recovered e'.load.1 e'.load.2 := by
  intro e'
  have hload : e'.load = (.ok (e'.loaded.2.restoreAll e'.loaded.1).1,
      (e'.loaded.2.restoreAll e'.loaded.1).2) := rfl
  rw [hload, loaded_memory (e := e') (key_eq_of_stored hs)]
  exact recovered_restoreAll hn hs settings now newId isLinked _

/-- All handles of the live jobs are observed before any is given out. -/
theorem not_mem_of_live {k : JobKey} {live : LiveJob} (hlive : e.live.find? k = some live)
    {bs : List (Action MemoryStore)} :
    let e' := start settings e.store now newId isLinked
    e.handles.last.toNat + e'.load.2.issued bs < UInt64.size →
      live.job.handle ∉ e'.loadHandles ++ e'.load.2.issuedHandles bs := by
  intro e' hroom
  have hloaded := loaded_memory (e := e') (key_eq_of_stored hs)
  have hmem : live.job.renewed ∈ e'.loaded.1 := by
    rw [hloaded]
    exact (renewed_mem_stored hs hlive).2
  -- all records have handles, so the load gives none out
  have hnone : e'.loadHandles = [] := by
    rw [loadHandles, hloaded]
    exact restoredHandles_eq_nil (fun j hj => handle_ne_empty_of_stored hn hs hj) _
  have hlast : e'.loaded.2.handles.last.toNat ≤ e.handles.last.toNat := by
    rw [hloaded]
    exact UInt64.le_iff_toNat_le.mp (last_observed_le hn hs settings.hostname)
  refine not_mem_of_passed (passed_loaded hmem) ?_
  rw [hnone, List.length_nil]
  omega

end Successor

/-- After a run over a store in memory another engine takes its place: it has the same live jobs,
all of them queued, and none of their handles is given out again. -/
theorem recovered_run (settings settings' : EngineSettings) (now now' : Int64)
    (newId newId' : Nat → String) (isLinked isLinked' : Bool) {as : List (Action MemoryStore)}
    (has : ∀ change, .alterStore change ∉ as)
    (hroom : (start settings .empty now newId isLinked).issued as < UInt64.size - 1) :
    let e := (start settings .empty now newId isLinked).run as
    let e' := start settings' e.store now' newId' isLinked'
    e.Recovered e'.load.1 e'.load.2 ∧
      ∀ {k live}, e.live.find? k = some live → ∀ bs : List (Action MemoryStore),
        (start settings .empty now newId isLinked).issued as + e'.load.2.issued bs <
            UInt64.size - 1 →
          live.job.handle ∉ e'.loadHandles ++ e'.load.2.issuedHandles bs := by
  intro e e'
  have hlt : 0 + (start settings MemoryStore.empty now newId isLinked).issued as < UInt64.size := by
    omega
  have hs₀ := sound_start settings MemoryStore.empty (fun _ => rfl) now newId isLinked
  have hs : e.core.Sound := sound_run hs₀ has
  have hn : e.core.Numbered := numbered_run (fun _ => id)
    (numbered_start settings MemoryStore.empty now newId isLinked) hs₀ has hlt
  refine ⟨recovered_load hn hs settings' now' newId' isLinked', fun hlive bs hroom => ?_⟩
  have hlast : e.handles.last.toNat = 0 + _ := last_run hlt
  have hbound : e.handles.last.toNat + e'.load.2.issued bs < UInt64.size := by omega
  exact not_mem_of_live hn hs settings' now' newId' isLinked' hlive hbound

/-- A job is worked on and another queued when the engine stops; the next one has the same host and
queues that are full with one job. -/
theorem recovered_run_full_queue :
    ∃ (as bs : List (Action MemoryStore)) (settings : EngineSettings),
      let e := (start .default .empty 0 decimal false).run as
      let e' := start settings e.store 100 decimal true
      settings.maxQueueSize = 1 ∧
        (e.live.find? ⟨"f", "u"⟩).map (·.job.state) = some .working ∧
        (e.live.find? ⟨"f", "w"⟩).map (·.job.state) = some .queued ∧
        e'.load.2.issuedHandles bs = ["H:localhost:4", "H:localhost:5"] ∧
        e.Recovered e'.load.1 e'.load.2 ∧
        ∀ k live, e.live.find? k = some live →
          live.job.handle ∉ e'.loadHandles ++ e'.load.2.issuedHandles bs := by
  refine ⟨[.arrive "1.1.1.1:1", .connect 0, .canDo 0 "f" none, .submit (.new "f" "u" []) (some 0),
      .submit (.new "f" "v" []) none, .submit (.new "f" "w" []) none, .grab 0, .grab 0,
      .finish "H:localhost:2" .fail],
    [.submit (.new "f" "x" []) none, .submit (.new "g" "y" []) none],
    { EngineSettings.default with maxQueueSize := 1 }, rfl, ?_, ?_, ?_,
    (recovered_run .default _ 0 100 decimal decimal false true (by simp) ?_).1, fun k live h =>
      (recovered_run .default _ 0 100 decimal decimal false true (by simp) ?_).2 h _ ?_⟩ <;>
    decide +kernel

end Engine

end JobBroker
