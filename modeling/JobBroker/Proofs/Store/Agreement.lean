import JobBroker.Proofs.Job.Stored
import JobBroker.Proofs.Redis.Data
import JobBroker.Proofs.Store.Records
import JobBroker.Store.Redis
import Mathlib.Data.List.Forall2

/-!
# Stores that agree

A store in memory and one in Redis give the same answers to any calls, whichever way the server
orders what it lists. The names of functions and prefixes may be any texts: no two keys of a store
are the same.

* `StoreCall.run` : the calls that can be made to a store, with their answers.
* `Mirrors` : the hashes and the set of the server say what the memory holds.
* `RedisStore.agrees_runAll` : the answers are the same.
-/

namespace JobBroker

open Redis (Command Data Host Keeps Reply)

/-! ### Calls -/

inductive StoreCall
  | write (job : Job)
  | delete (job : Job)
  | deleteById (key : JobKey)
  | deleteAll
  | find (key : JobKey)
  | readAll
  | ofFunction (functionName : String)
deriving DecidableEq

inductive StoreAnswer
  | written (isTaken : Bool)
  | done
  | found (job : Option Job)
  | listed (jobs : List QueuedJob)
deriving DecidableEq

namespace StoreCall

variable {σ : Type} [JobStore σ]

def run (s : σ) : StoreCall → Except JobError StoreAnswer × σ
  | write j => ((JobStore.write j s).1.map .written, (JobStore.write j s).2)
  | delete j => ((JobStore.delete j.key s).1.map fun _ => .done, (JobStore.delete j.key s).2)
  | deleteById k => ((JobStore.delete k s).1.map fun _ => .done, (JobStore.delete k s).2)
  | deleteAll => ((JobStore.deleteAll s).1.map fun _ => .done, (JobStore.deleteAll s).2)
  | find k => ((JobStore.find k s).1.map .found, (JobStore.find k s).2)
  | readAll => ((JobStore.readAll s).1.map .listed, (JobStore.readAll s).2)
  | ofFunction f => ((JobStore.ofFunction f s).1.map .listed, (JobStore.ofFunction f s).2)

/-- The answers to some calls, one after the other. -/
def runAll : List StoreCall → σ → List (Except JobError StoreAnswer)
  | [], _ => []
  | c :: cs, s => (c.run s).1 :: runAll cs (c.run s).2

end StoreCall

/-- Two answers are equal, and listed jobs are the same in some order. -/
inductive StoreAnswer.Agrees : Except JobError StoreAnswer → Except JobError StoreAnswer → Prop
  | same (a : Except JobError StoreAnswer) : Agrees a a
  | listed {qs qs' : List QueuedJob} (h : qs.Perm qs') :
    Agrees (.ok (.listed qs)) (.ok (.listed qs'))

/-! ### Keys -/

namespace RedisStore

theorem jobsKey_inj {p f g : String} : jobsKey p f = jobsKey p g ↔ f = g := by
  refine ⟨fun h => ?_, fun h => h ▸ rfl⟩
  have hchars := congrArg String.toList h
  simp only [jobsKey, String.toList_append] at hchars
  exact String.toList_injective (List.append_cancel_left hchars)

theorem jobsKey_ne_functionsKey (p f : String) : jobsKey p f ≠ functionsKey p := by
  intro h
  have hchars := congrArg String.toList h
  simp only [jobsKey, functionsKey, String.toList_append, List.append_assoc] at hchars
  have hmark := congrArg (·[1]?) (List.append_cancel_left hchars)
  simp at hmark

end RedisStore

/-! ### The server beside the memory -/

/-- Under the keys of the store the server keeps what the memory holds: each record as text, and the
name of each function that has one. -/
structure Mirrors (p : String) (d : Data) (m : MemoryStore) : Prop where
  hash : ∀ f u, d.hash (RedisStore.jobsKey p f) u = (m.find? ⟨f, u⟩).map Job.toText
  listed : ∀ {k j}, m.find? k = some j → d.members (RedisStore.functionsKey p) k.functionName
  noSet : ∀ f x, ¬ d.members (RedisStore.jobsKey p f) x
  noHash : ∀ x, d.hash (RedisStore.functionsKey p) x = none
  key_eq : ∀ {k j}, m.find? k = some j → j.key = k

namespace Mirrors

open RedisStore

variable {p : String} {d : Data} {m : MemoryStore}

theorem write (h : Mirrors p d m) (j : Job) :
    Mirrors p ((d.after (.hset (jobsKey p j.functionName) j.uniqueId j.toText)).after
      (.sadd (functionsKey p) j.functionName)) (m.insert j) where
  hash f u := by
    show (if jobsKey p j.functionName = jobsKey p f ∧ j.uniqueId = u then some j.toText
      else d.hash (jobsKey p f) u) = _
    simp only [MemoryStore.find?_insert, jobsKey_inj, h.hash, Job.key, JobKey.mk.injEq]
    split <;> rfl
  listed {k j'} hk := by
    show (functionsKey p = functionsKey p ∧ j.functionName = k.functionName) ∨
      d.members (functionsKey p) k.functionName
    rw [MemoryStore.find?_insert] at hk
    split at hk
    · next hkey => exact .inl ⟨rfl, congrArg JobKey.functionName hkey⟩
    · exact .inr (h.listed hk)
  noSet f x hx := by
    rcases hx with ⟨hkey, -⟩ | hx
    · exact jobsKey_ne_functionsKey p f hkey.symm
    · exact h.noSet f x hx
  noHash x := (if_neg fun hx => jobsKey_ne_functionsKey p _ hx.1).trans (h.noHash x)
  key_eq {k j'} hk := by
    rw [MemoryStore.find?_insert] at hk
    split at hk
    · next hkey => exact Option.some.inj hk ▸ hkey
    · exact h.key_eq hk

theorem delete (h : Mirrors p d m) (k : JobKey) :
    Mirrors p (d.after (.hdel (jobsKey p k.functionName) k.uniqueId)) (m.erase k) where
  hash f u := by
    show (if jobsKey p k.functionName = jobsKey p f ∧ k.uniqueId = u then none
      else d.hash (jobsKey p f) u) = _
    obtain ⟨f', u'⟩ := k
    simp only [MemoryStore.find?_erase, jobsKey_inj, h.hash, JobKey.mk.injEq]
    split <;> rfl
  listed {k' j} hk := by
    rw [MemoryStore.find?_erase] at hk
    split at hk
    · cases hk
    · exact h.listed hk
  noSet := h.noSet
  noHash x := (if_neg fun hx => jobsKey_ne_functionsKey p _ hx.1).trans (h.noHash x)
  key_eq {k' j} hk := by
    rw [MemoryStore.find?_erase] at hk
    split at hk
    · cases hk
    · exact h.key_eq hk

/-- The keys of all functions in the set are enough: no other function has a record. -/
theorem deleteAll (h : Mirrors p d m) {names : List String}
    (hnames : ∀ f, d.members (functionsKey p) f → f ∈ names) :
    Mirrors p (((names.map (jobsKey p) ++ [functionsKey p]).map Command.del).foldl Data.after d)
      .empty := by
  rw [Data.foldl_del]
  have hnone : ∀ f, jobsKey p f ∉ names.map (jobsKey p) ++ [functionsKey p] →
      ∀ u, m.find? ⟨f, u⟩ = none := fun f hf u => by
    refine Option.eq_none_iff_forall_ne_some.mpr fun j hj => hf ?_
    exact List.mem_append_left _ (List.mem_map_of_mem (hnames f (h.listed hj)))
  refine ⟨fun f u => ?_, fun hk => by simp at hk, fun f x hx => h.noSet f x hx.2, fun x => ?_,
    fun hk => by simp at hk⟩
  · show (if _ then none else d.hash (jobsKey p f) u) = none
    split
    · rfl
    · next hf => rw [h.hash, hnone f hf u, Option.map_none]
  · exact if_pos (List.mem_append_right _ List.mem_cons_self)

end Mirrors

/-! ### Listed records -/

/-- Each record of the functions in question stands in the list, and stands there once. -/
def MemoryStore.Lists (m : MemoryStore) (ofInterest : String → Prop) (js : List Job) : Prop :=
  js.Nodup ∧ ∀ j, j ∈ js ↔ ofInterest j.functionName ∧ m.find? j.key = some j

namespace MemoryStore

variable {m : MemoryStore} {P : String → Prop} {js js' : List Job}

theorem Lists.perm (h : m.Lists P js) (h' : m.Lists P js') : js.Perm js' :=
  (List.perm_ext_iff_of_nodup h.1 h'.1).mpr fun j => (h.2 j).trans (h'.2 j).symm

theorem Lists.congr (h : m.Lists P js) {Q : String → Prop}
    (hPQ : ∀ {j}, m.find? j.key = some j → (P j.functionName ↔ Q j.functionName)) :
    m.Lists Q js :=
  ⟨h.1, fun j => (h.2 j).trans (and_congr_left hPQ)⟩

theorem Lists.append {f : String} {fs : List String} (hf : f ∉ fs) (h : m.Lists (· = f) js)
    (h' : m.Lists (· ∈ fs) js') : m.Lists (· ∈ f :: fs) (js ++ js') := by
  refine ⟨List.nodup_append.mpr ⟨h.1, h'.1, fun j hj j' hj' => ?_⟩, fun j => ?_⟩
  · rintro rfl
    exact hf (((h.2 j).mp hj).1 ▸ ((h'.2 j).mp hj').1)
  · simp only [List.mem_append, h.2, h'.2, List.mem_cons, or_and_right]

theorem Lists.of_perm (h : m.Lists P js) (hperm : js'.Perm js) : m.Lists P js' :=
  ⟨hperm.nodup_iff.mpr h.1, fun _ => hperm.mem_iff.trans (h.2 _)⟩

variable (hkey : ∀ {k j}, m.find? k = some j → j.key = k)
include hkey

theorem lists_toList : m.Lists (fun _ => True) m.toList := by
  refine ⟨(nodup_keys_toList hkey).of_map, fun j => ?_⟩
  rw [mem_toList hkey]
  exact ⟨fun h => ⟨trivial, h⟩, And.right⟩

/-- Records that are looked up one after the other. -/
theorem lists_filterMap {f : String} {us : List String} (hus : us.Nodup)
    (hall : ∀ u, u ∈ us ↔ m.find? ⟨f, u⟩ ≠ none) :
    m.Lists (· = f) (us.filterMap fun u => m.find? ⟨f, u⟩) := by
  constructor
  · refine hus.filterMap fun u u' j hj hj' => ?_
    exact congrArg JobKey.uniqueId ((hkey hj).symm.trans (hkey hj'))
  · intro j
    rw [List.mem_filterMap]
    constructor
    · rintro ⟨u, -, hj⟩
      have hjkey := hkey hj
      exact ⟨congrArg JobKey.functionName hjkey, hjkey ▸ hj⟩
    · rintro ⟨rfl, hj⟩
      exact ⟨j.uniqueId, (hall _).mpr fun hnone => (nomatch hj.symm.trans hnone), hj⟩

theorem lists_ofFunction (f : String) :
    m.Lists (· = f) (Text.sortOn Job.uniqueId (m.ofFunction f).values) := by
  have hvalues : (m.ofFunction f).values =
      (m.ofFunction f).keys.filterMap fun u => m.find? ⟨f, u⟩ := by
    rw [Table.keys, List.filterMap_map, Table.values]
    have hget : ∀ e ∈ (m.ofFunction f).entries,
        ((fun u => m.find? ⟨f, u⟩) ∘ Prod.fst) e = some e.2 := fun _ he =>
      Table.get?_eq_some_iff.mpr he
    rw [List.filterMap_congr hget]
    exact (congrFun List.filterMap_eq_map _).symm
  refine .of_perm ?_ (Text.sortBy_perm _)
  rw [hvalues]
  refine lists_filterMap hkey (m.ofFunction f).nodup fun u => ?_
  rw [Option.ne_none_iff_exists']
  exact Table.mem_keys

end MemoryStore

/-! ### One call -/

namespace RedisStore

variable {σ : Type} [Host σ] {Holds : σ → Data → Prop} {s : RedisStore σ} {d : Data}
  {m : MemoryStore}

theorem call_eq {c : Command} {reply : Reply} {server : σ}
    (h : Host.call c s.server = (some reply, server)) :
    s.call c = (.ok reply, { s with server }) := by
  rw [call, h]
  rfl

theorem transaction_eq {cs : List Command} {server : σ}
    (h : Host.transaction cs s.server = (true, server)) :
    s.transaction cs = (.ok (), { s with server }) := by
  rw [transaction, h]
  rfl

/-- The server of the store holds what the memory holds. -/
def Follows (Holds : σ → Data → Prop) (s : RedisStore σ) (m : MemoryStore) : Prop :=
  ∃ d, Holds s.server d ∧ Mirrors s.keyPrefix d m

section Calls

variable (hkeeps : Keeps Holds)
include hkeeps

theorem write_follows (hs : s.Follows Holds m) (j : Job) : (JobStore.write j s).1 = .ok true ∧
    (JobStore.write j s).2.Follows Holds (m.insert j) := by
  obtain ⟨d, hd, hm⟩ := hs
  obtain ⟨server, hrun, hd'⟩ := hkeeps.transaction
    [.hset (jobsKey s.keyPrefix j.functionName) j.uniqueId j.toText,
      .sadd (functionsKey s.keyPrefix) j.functionName] hd
    ⟨hm.noSet j.functionName, (hm.write j).noHash, trivial⟩
  have heq : JobStore.write j s = ((Except.ok ()).map fun _ => true, { s with server }) :=
    congrArg (fun p => (p.1.map fun _ => true, p.2)) (transaction_eq hrun)
  rw [heq]
  exact ⟨rfl, _, hd', hm.write j⟩

theorem delete_follows (hs : s.Follows Holds m) (k : JobKey) : (JobStore.delete k s).1 = .ok () ∧
    (JobStore.delete k s).2.Follows Holds (m.erase k) := by
  obtain ⟨d, hd, hm⟩ := hs
  obtain ⟨reply, server, hrun, -, hd'⟩ := hkeeps.call
    (.hdel (jobsKey s.keyPrefix k.functionName) k.uniqueId) hd (hm.noSet _)
  have heq : JobStore.delete k s = ((Except.ok reply).map fun _ => (), { s with server }) :=
    congrArg (fun p => (p.1.map fun _ => (), p.2)) (call_eq hrun)
  rw [heq]
  exact ⟨rfl, _, hd', hm.delete k⟩

theorem deleteAll_follows (hs : s.Follows Holds m) : (JobStore.deleteAll s).1 = .ok () ∧
    (JobStore.deleteAll s).2.Follows Holds .empty := by
  obtain ⟨d, hd, hm⟩ := hs
  obtain ⟨names, server, hlist, ⟨-, hnames⟩, hd'⟩ := hkeeps.call
    (.smembers (functionsKey s.keyPrefix)) hd hm.noHash
  obtain ⟨server', hrun, hd''⟩ := hkeeps.transaction _ hd' (Data.fitAll_del
    (names.map (jobsKey s.keyPrefix) ++ [functionsKey s.keyPrefix]) _)
  have heq : JobStore.deleteAll s = (.ok (), { s with server := server' }) := by
    rw [List.map_append, List.map_map] at hrun
    simp only [JobStore.deleteAll, call_eq hlist]
    exact transaction_eq hrun
  rw [heq]
  exact ⟨rfl, _, hd'', hm.deleteAll fun f => (hnames f).mpr⟩

theorem find_follows (hs : s.Follows Holds m) (k : JobKey) :
    (JobStore.find k s).1 = .ok (m.find? k) ∧ (JobStore.find k s).2.Follows Holds m := by
  obtain ⟨d, hd, hm⟩ := hs
  obtain ⟨reply, server, hrun, hreply, hd'⟩ := hkeeps.call
    (.hget (jobsKey s.keyPrefix k.functionName) k.uniqueId) hd (hm.noSet _)
  obtain rfl : reply = ((m.find? k).map Job.toText).toList := hreply.trans (by rw [hm.hash])
  have heq : JobStore.find k s = (.ok (m.find? k), { s with server }) := by
    show find k s = _
    rw [find, call_eq hrun]
    cases m.find? k with
    | none => rfl
    | some j => simp [Job.ofText?_toText]
  rw [heq]
  exact ⟨rfl, _, hd', hm⟩

omit hkeeps [Host σ] in
theorem summaries_texts (js : List Job) : summaries (js.map Job.toText) = js.map Job.summary := by
  rw [summaries, List.filterMap_map]
  have hread : ∀ j ∈ js, ((fun text => (Job.ofText? text).map Job.summary) ∘ Job.toText) j =
      some j.summary := fun j _ => by simp [Job.ofText?_toText]
  rw [List.filterMap_congr hread]
  exact congrFun List.filterMap_eq_map js

theorem ofFunction_follows (hs : s.Follows Holds m) (f : String) : ∃ js, m.Lists (· = f) js ∧
    ∃ server, ofFunction f s = (.ok (js.map Job.summary), { s with server }) ∧
      RedisStore.Follows Holds { s with server } m := by
  obtain ⟨d, hd, hm⟩ := hs
  obtain ⟨reply, server, hrun, ⟨us, hus, hall, hreply⟩, hd'⟩ := hkeeps.call
    (.hvals (jobsKey s.keyPrefix f)) hd (hm.noSet _)
  have htexts : reply = (us.filterMap fun u => m.find? ⟨f, u⟩).map Job.toText := by
    rw [hreply, List.map_filterMap]
    exact List.filterMap_congr fun u _ => hm.hash f u
  refine ⟨_, MemoryStore.lists_filterMap hm.key_eq hus fun u => ?_, server, ?_, _, hd', hm⟩
  · rw [hall, hm.hash, Ne, Option.map_eq_none_iff]
  · rw [ofFunction, call_eq hrun]
    simp only [htexts, summaries_texts]

theorem ofFunctions_follows (hs : s.Follows Holds m) {fs : List String} (hfs : fs.Nodup) :
    ∃ js, m.Lists (· ∈ fs) js ∧
      ∃ server, ofFunctions fs s = (.ok (js.map Job.summary), { s with server }) ∧
        RedisStore.Follows Holds { s with server } m := by
  induction fs generalizing s with
  | nil => exact ⟨[], ⟨List.nodup_nil, by simp⟩, s.server, rfl, hs⟩
  | cons f fs ih =>
    obtain ⟨hf, hfs⟩ := List.nodup_cons.mp hfs
    obtain ⟨js, hjs, server, hrun, hs'⟩ := ofFunction_follows hkeeps hs f
    obtain ⟨js', hjs', server', hrun', hs''⟩ := ih hs' hfs
    refine ⟨js ++ js', hjs.append hf hjs', server', ?_, hs''⟩
    simp only [ofFunctions, hrun, hrun', List.map_append]

theorem readAll_follows (hs : s.Follows Holds m) : ∃ js, m.Lists (fun _ => True) js ∧
    (JobStore.readAll s).1 = .ok (js.map Job.summary) ∧
      (JobStore.readAll s).2.Follows Holds m := by
  obtain ⟨d, hd, hm⟩ := hs
  obtain ⟨names, server, hlist, ⟨hnodup, hnames⟩, hd'⟩ := hkeeps.call
    (.smembers (functionsKey s.keyPrefix)) hd hm.noHash
  obtain ⟨js, hjs, server', hrun, hs'⟩ := ofFunctions_follows hkeeps
    (s := { s with server }) ⟨_, hd', hm⟩ hnodup
  have heq : JobStore.readAll s = (.ok (js.map Job.summary), { s with server := server' }) := by
    simp only [JobStore.readAll, call_eq hlist]
    exact hrun
  rw [heq]
  refine ⟨js, hjs.congr fun {j} hj => ?_, rfl, hs'⟩
  exact iff_of_true ((hnames _).mpr (hm.listed hj)) trivial

end Calls

/-! ### Any calls -/

open StoreAnswer (Agrees)

theorem agrees_run (hkeeps : Keeps Holds) (hs : s.Follows Holds m) (c : StoreCall) :
    Agrees (c.run s).1 (c.run m).1 ∧ (c.run s).2.Follows Holds (c.run m).2 := by
  have hkey : ∀ {k j}, m.find? k = some j → j.key = k := by
    obtain ⟨d, -, hm⟩ := hs
    exact hm.key_eq
  cases c with
  | write j =>
    obtain ⟨hanswer, hs'⟩ := write_follows hkeeps hs j
    exact ⟨by simpa [StoreCall.run, hanswer] using .same _, hs'⟩
  | delete j =>
    obtain ⟨hanswer, hs'⟩ := delete_follows hkeeps hs j.key
    exact ⟨by simpa [StoreCall.run, hanswer] using .same _, hs'⟩
  | deleteById k =>
    obtain ⟨hanswer, hs'⟩ := delete_follows hkeeps hs k
    exact ⟨by simpa [StoreCall.run, hanswer] using .same _, hs'⟩
  | deleteAll =>
    obtain ⟨hanswer, hs'⟩ := deleteAll_follows hkeeps hs
    exact ⟨by simpa [StoreCall.run, hanswer] using .same _, hs'⟩
  | find k =>
    obtain ⟨hanswer, hs'⟩ := find_follows hkeeps hs k
    exact ⟨by simpa [StoreCall.run, hanswer] using .same _, hs'⟩
  | readAll =>
    obtain ⟨js, hjs, hanswer, hs'⟩ := readAll_follows hkeeps hs
    have hperm := hjs.perm (MemoryStore.lists_toList hkey)
    exact ⟨by simpa [StoreCall.run, hanswer] using .listed (hperm.map Job.summary), hs'⟩
  | ofFunction f =>
    obtain ⟨js, hjs, server, hrun, hs'⟩ := ofFunction_follows hkeeps hs f
    have hperm := hjs.perm (MemoryStore.lists_ofFunction hkey f)
    have heq : JobStore.ofFunction f s = (.ok (js.map Job.summary), { s with server }) := hrun
    simp only [StoreCall.run, heq]
    exact ⟨.listed (hperm.map Job.summary), hs'⟩

theorem Follows.forall₂_runAll (hkeeps : Keeps Holds) (hs : s.Follows Holds m)
    (cs : List StoreCall) :
    List.Forall₂ Agrees (StoreCall.runAll cs s) (StoreCall.runAll cs m) := by
  induction cs generalizing s m with
  | nil => exact .nil
  | cons c cs ih =>
    obtain ⟨hanswer, hs'⟩ := agrees_run hkeeps hs c
    exact .cons hanswer (ih hs')

omit [Host σ] in
/-- A new store follows an empty memory when nothing is kept under its prefix. What else the server
holds does not matter. -/
theorem follows_empty {p : String} {server : σ} (hd : Holds server d)
    (hfree : ∀ rest, d.IsFree (p ++ ":" ++ rest)) :
    (⟨p, server⟩ : RedisStore σ).Follows Holds .empty := by
  have hjobs : ∀ f, d.IsFree (jobsKey p f) := fun f => by
    rw [jobsKey, show ":jobs:" = ":" ++ "jobs:" from rfl, ← String.append_assoc,
      String.append_assoc]
    exact hfree _
  have hfunctions : d.IsFree (functionsKey p) := by
    rw [functionsKey, show ":functions" = ":" ++ "functions" from rfl, ← String.append_assoc]
    exact hfree _
  exact ⟨d, hd, fun f u => (hjobs f).1 u, fun hk => (nomatch hk), fun f => (hjobs f).2,
    hfunctions.1, fun hk => (nomatch hk)⟩

/-- A store in Redis that starts with nothing under its prefix gives the answers of a store in
memory that starts empty, call by call. -/
theorem agrees_runAll (hkeeps : Keeps Holds) {server : σ} (hd : Holds server d) (p : String)
    (hfree : ∀ rest, d.IsFree (p ++ ":" ++ rest)) (cs : List StoreCall) :
    List.Forall₂ Agrees (StoreCall.runAll cs (⟨p, server⟩ : RedisStore σ))
      (StoreCall.runAll cs MemoryStore.empty) :=
  (follows_empty hd hfree).forall₂_runAll hkeeps cs

/-- A server with the keys of another prefix. -/
def neighbour : Redis.Server where
  hashes := .insert .empty "b:jobs:f" (.insert .empty "u" "{}")
  sets := .insert .empty "b:functions" ["f"]
  refused := []
  log := []

theorem agrees_beside_neighbour : (¬ neighbour.data.IsFree "b:functions") ∧
    (∀ rest, neighbour.data.IsFree ("a" ++ ":" ++ rest)) ∧
    List.Forall₂ Agrees
      (StoreCall.runAll [.write (.new "f" "u" [0]), .write (.new "" "v" []), .readAll,
        .delete (.new "f" "u" []), .find ⟨"", "v"⟩, .ofFunction "f", .deleteAll, .readAll]
        (⟨"a", neighbour⟩ : RedisStore Redis.Server))
      (StoreCall.runAll [.write (.new "f" "u" [0]), .write (.new "" "v" []), .readAll,
        .delete (.new "f" "u" []), .find ⟨"", "v"⟩, .ofFunction "f", .deleteAll, .readAll]
        MemoryStore.empty) := by
  have hne : ∀ {rest k : String}, k.toList.head? = some 'b' → k ≠ "a" ++ ":" ++ rest := by
    rintro rest _ hk rfl
    simp at hk
  have hmembers : ∀ k, neighbour.members k = if "b:functions" = k then ["f"] else [] := fun k => by
    simp only [Redis.Server.members, neighbour, Table.get?_insert]
    split <;> rfl
  have hfree : ∀ rest, neighbour.data.IsFree ("a" ++ ":" ++ rest) := fun rest => by
    refine ⟨fun f => ?_, fun m => ?_⟩
    · show ((neighbour.hashes.get? _).getD .empty).get? f = none
      rw [neighbour, Table.get?_insert, if_neg (hne (by decide))]
      rfl
    · show m ∉ neighbour.members _
      rw [hmembers, if_neg (hne (by decide))]
      exact List.not_mem_nil
  have hnodup : ∀ k, (neighbour.members k).Nodup := fun k => by
    rw [hmembers]
    split <;> simp
  exact ⟨fun h => h.2 "f" List.mem_cons_self, hfree,
    agrees_runAll Redis.Server.keeps ⟨rfl, hnodup, rfl⟩ "a" hfree _⟩

end RedisStore

end JobBroker
