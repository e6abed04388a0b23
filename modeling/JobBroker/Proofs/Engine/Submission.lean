import JobBroker.Proofs.Engine.Waiting

/-!
# Submission

* `Keeps.submit` : a submission joins the live job with its key, or is let in under a new handle, or
  is refused and uses a handle up.
-/

namespace JobBroker

open Function (update update_apply)
open Ledger (Move Path)

namespace Engine

variable {σ : Type} {e : Engine σ} {l : Ledger}

/-- The wait list a submission joins, if it has a client and is in the foreground. -/
def joins (k : JobKey) (background : Bool) : Option SessionId → List Move
  | none => []
  | some id => if background then [] else [.join k id]

/-- The moves behind the answer to a submission. -/
inductive Submitted (l : Ledger) (background : Bool) (client : Option SessionId) :
    Except JobError Job → List Move → Prop
  | joined {live : LiveJob} : l.jobs live.job.key = some live →
    Submitted l background client (.ok live.job) (joins live.job.key background client)
  | letIn (j : Job) :
    Submitted l background client (.ok j) (.letIn j :: joins j.key background client)
  | refused (err : JobError) : Submitted l background client (.error err) [.waste]

theorem mem_joins {k : JobKey} {background : Bool} {client : Option SessionId} {m : Move}
    (h : m ∈ joins k background client) :
    ∃ id, client = some id ∧ background = false ∧ m = .join k id := by
  cases client with
  | none => exact absurd h (by simp [joins])
  | some id =>
    cases background with
    | true => exact absurd h (by simp [joins])
    | false => exact ⟨id, rfl, rfl, List.mem_singleton.mp h⟩

theorem Submitted.mem {background : Bool} {client : Option SessionId}
    {answer : Except JobError Job} {ms : List Move} {m : Move}
    (h : Submitted l background client answer ms) (hm : m ∈ ms) :
    m = .waste ∨ (∃ j, m = .letIn j) ∨ ∃ k id, m = .join k id := by
  cases h with
  | joined _ =>
    obtain ⟨id, -, -, rfl⟩ := mem_joins hm
    exact .inr (.inr ⟨_, id, rfl⟩)
  | letIn j =>
    rcases List.mem_cons.mp hm with rfl | hm
    · exact .inr (.inl ⟨j, rfl⟩)
    · obtain ⟨id, -, -, rfl⟩ := mem_joins hm
      exact .inr (.inr ⟨_, id, rfl⟩)
  | refused err => exact .inl (List.mem_singleton.mp hm)

theorem Keeps.nextHandle (hk : e.Keeps l) :
    Keeps { e with handles := e.handles.next.2 } { l with last := l.last + 1 } :=
  { hk with
    host_eq := hk.host_eq
    last_eq := congrArg (· + 1) hk.last_eq }

theorem Keeps.awaitClient (hk : e.Keeps l) {j : Job} (hf : (e.workshop? j.functionName).isSome)
    (hlive : l.jobs j.key ≠ none) {client : Option SessionId}
    (hclient : ∀ id, client = some id → id ∈ e.connected) :
    ∃ l', l.Path (joins j.key j.background client) l' ∧ (e.await j client).Keeps l' := by
  cases client with
  | none => exact ⟨l, .nil l, hk⟩
  | some id =>
    by_cases hj : j.background = true
    · refine ⟨l, ?_, ?_⟩
      · simp only [joins, hj, if_true]
        exact .nil l
      · simpa [Engine.await, hj] using hk
    · simp only [joins, hj]
      exact ⟨_, .single hlive, hk.await hf (by simpa using hj) (hclient id rfl)⟩

variable [JobStore σ]

theorem Keeps.letIn (hk : e.Keeps l) {j : Job} (hf : (e.workshop? j.functionName).isSome)
    (hnew : l.jobs j.key = none) (hroom : l.last < l.last + 1) {client : Option SessionId}
    (hclient : ∀ id, client = some id → id ∈ e.connected) :
    ∃ ms l', l.Path ms l' ∧ (e.letIn j client).2.Keeps l' ∧
      Submitted l j.background client (e.letIn j client).1 ms := by
  obtain ⟨j₁, hj₁⟩ : ∃ j₁, ({ j.renewed with handle := e.handles.next.1 } : Job) = j₁ := ⟨_, rfl⟩
  have hhandle : j₁.handle = Handle.render l.host (l.last + 1) := by
    rw [← hj₁, hk.host_eq, hk.last_eq]
    rfl
  have hkey : j₁.key = j.key := hj₁ ▸ rfl
  have hf : (e.workshop? j₁.functionName).isSome := by
    rw [← hj₁]
    exact hf
  have hfits : (Move.letIn j₁).Fits l := ⟨hkey ▸ hnew, hj₁ ▸ rfl, hhandle, hroom⟩
  rcases Queue.enqueue_cases (e.workshop j₁.functionName).queue j₁ e.store with
    ⟨store, henqueue, hfind, -⟩ | ⟨answer, store, henqueue, hanswer, -⟩
  · have haccept := Queue.accept_inOrder (hk.inOrder j₁.functionName) (j := j₁.summary) hfind
    have hqueued := (hk.nextHandle.setQueue hf haccept fun v => Queue.find?_accept _ _ v).withStore
      store
    have hf := (isSome_modifyWorkshop e j₁.functionName j₁.functionName fun w =>
      { w with queue := (e.workshop j₁.functionName).queue.accept j₁.summary }).trans hf
    obtain ⟨l', hp, hk'⟩ := (hqueued.insertLive hf none).awaitClient (j := j₁) hf (by simp) hclient
    subst hj₁
    refine ⟨_, l', .cons hfits hp, ?_⟩
    simp only [Engine.letIn, henqueue]
    exact ⟨(hk'.quiet (.wakeCrew _ _)).quiet (.publish _ _), .letIn _⟩
  · have hwaste := ((hk.nextHandle.quiet (.setQueue_self _ j₁.functionName)).withStore store)
    subst hj₁
    refine ⟨[.waste], _, .single hroom, ?_⟩
    simp only [Engine.letIn, henqueue]
    rcases answer with err | _ | _
    · exact ⟨hwaste, .refused err⟩
    · exact ⟨hwaste, .refused _⟩
    · exact absurd rfl hanswer

theorem Keeps.submit (hk : e.Keeps l) (hl : l.Consistent) (hroom : l.last < l.last + 1) (j : Job)
    {client : Option SessionId} (hclient : ∀ id, client = some id → id ∈ e.connected) :
    ∃ ms l', l.Path ms l' ∧ (e.submit j client).2.Keeps l' ∧
      Submitted l j.background client (e.submit j client).1 ms := by
  have hidentify : Undisturbed e (e.identify j).2 ∧ (e.identify j).1.background = j.background := by
    unfold identify
    split
    · exact ⟨{ Undisturbed.refl e with }, rfl⟩
    · exact ⟨.refl e, rfl⟩
  rcases hi : e.identify j with ⟨j₁, e₁⟩
  rw [hi] at hidentify
  obtain ⟨hquiet, hbackground⟩ := hidentify
  have hk := (hk.quiet hquiet).quiet (.establish e₁ j₁.functionName)
  have hf := isSome_establish e₁ j₁.functionName
  have hclient : ∀ id, client = some id → id ∈ (e₁.establish j₁.functionName).connected :=
    fun id h => hquiet.connected ▸ hclient id h
  simp only [Engine.submit, hi, ← hbackground]
  split
  · next live hlive =>
    have hlive : l.jobs j₁.key = some live := hk.jobs_eq ▸ hlive
    have hkey := hl.key_eq hlive
    obtain ⟨l', hp, hk'⟩ := hk.awaitClient hf (by rw [hlive]; simp) hclient
    exact ⟨_, l', hkey ▸ hp, hk', .joined (hkey.symm ▸ hlive)⟩
  · next hnew => exact hk.letIn hf (hk.jobs_eq ▸ hnew) hroom hclient

end Engine

end JobBroker
