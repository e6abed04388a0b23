import JobBroker.Redis.Server
import JobBroker.Store.Memory
import Mathlib.Data.List.Nodup

/-!
# What a Redis server holds

A server holds hashes and sets under keys. Commands are said by what they do to these and by what
may be answered; the values of a hash and the members of a set come in any order.

* `Data.after` : what a command does.
* `Keeps` : the laws of a server that holds data and refuses nothing.
* `Server.keeps` : they are laws of the server with a log, as long as it refuses no command.
-/

namespace JobBroker.Redis

/-- Hashes by key and field, and sets by key. A key that is absent holds nothing. -/
@[ext]
structure Data where
  hash : String → String → Option String
  members : String → String → Prop

namespace Data

def after (d : Data) : Command → Data
  | .hset k f v =>
    { d with hash := fun k' f' => if k = k' ∧ f = f' then some v else d.hash k' f' }
  | .hdel k f => { d with hash := fun k' f' => if k = k' ∧ f = f' then none else d.hash k' f' }
  | .sadd k m => { d with members := fun k' m' => (k = k' ∧ m = m') ∨ d.members k' m' }
  | .del k =>
    { hash := fun k' f' => if k = k' then none else d.hash k' f'
      members := fun k' m' => k ≠ k' ∧ d.members k' m' }
  | .hget .. | .hvals _ | .smembers _ | .multi | .exec => d

/-- The command is one on hashes and finds no set under its key, or the other way round. -/
def Fits (d : Data) : Command → Prop
  | .hset k _ _ | .hdel k _ | .hget k _ | .hvals k => ∀ m, ¬ d.members k m
  | .sadd k _ | .smembers k => ∀ f, d.hash k f = none
  | .del _ => True
  | .multi | .exec => False

def FitAll (d : Data) : List Command → Prop
  | [] => True
  | c :: cs => d.Fits c ∧ (d.after c).FitAll cs

/-- What the answer to a command may be. That of a command that writes is not looked at. -/
def Answers (d : Data) : Command → Reply → Prop
  | .hget k f, reply => reply = (d.hash k f).toList
  | .hvals k, reply => ∃ fields : List String, fields.Nodup ∧
    (∀ f, f ∈ fields ↔ d.hash k f ≠ none) ∧ reply = fields.filterMap (d.hash k)
  | .smembers k, reply => reply.Nodup ∧ ∀ m, m ∈ reply ↔ d.members k m
  | _, _ => True

/-- Nothing is kept under the key. -/
def IsFree (d : Data) (key : String) : Prop :=
  (∀ f, d.hash key f = none) ∧ ∀ m, ¬ d.members key m

/-- What is left when some keys are deleted one after the other. -/
theorem foldl_del (ks : List String) (d : Data) : (ks.map Command.del).foldl after d =
    ⟨fun k f => if k ∈ ks then none else d.hash k f, fun k m => k ∉ ks ∧ d.members k m⟩ := by
  induction ks generalizing d with
  | nil => simp
  | cons k ks ih =>
    rw [List.map_cons, List.foldl_cons, ih]
    refine Data.ext (funext fun k' => funext fun f => ?_) (funext fun k' => funext fun m => ?_)
    · by_cases hk : k = k' <;> simp [after, hk, eq_comm]
    · by_cases hk : k = k' <;> simp [after, hk, eq_comm]

theorem fitAll_del (ks : List String) (d : Data) : d.FitAll (ks.map Command.del) := by
  induction ks generalizing d with
  | nil => trivial
  | cons k ks ih => exact ⟨trivial, ih _⟩

end Data

/-- A server that holds the data can be reached, answers as the data say, and then holds what the
commands make of them. -/
structure Keeps {σ : Type} [Host σ] (Holds : σ → Data → Prop) : Prop where
  call : ∀ c {s d}, Holds s d → d.Fits c → ∃ reply s',
    Host.call c s = (some reply, s') ∧ d.Answers c reply ∧ Holds s' (d.after c)
  transaction : ∀ cs {s d}, Holds s d → d.FitAll cs → ∃ s',
    Host.transaction cs s = (true, s') ∧ Holds s' (cs.foldl Data.after d)

namespace Server

def data (s : Server) : Data := ⟨fun k f => (s.hash k).get? f, fun k m => m ∈ s.members k⟩

/-- The server holds the data and refuses no command. -/
def Holds (s : Server) (d : Data) : Prop :=
  s.refused = [] ∧ (∀ k, (s.members k).Nodup) ∧ s.data = d

variable {s : Server} {d : Data}

/-! ### Hashes and sets after a command -/

theorem get?_hash_hset (s : Server) (k f v k' f' : String) :
    ((s.apply (.hset k f v)).2.hash k').get? f' =
      if k = k' ∧ f = f' then some v else (s.hash k').get? f' := by
  show (((s.hashes.insert k ((s.hash k).insert f v)).get? k').getD .empty).get? f' = _
  by_cases hk : k = k'
  · subst hk
    simp
  · simp [hk, hash]

/-- A hash that has become empty is as good as none. -/
theorem get?_hash_hdel (s : Server) (k f k' f' : String) :
    ((s.apply (.hdel k f)).2.hash k').get? f' =
      if k = k' ∧ f = f' then none else (s.hash k').get? f' := by
  show (((if ((s.hash k).erase f).isEmpty then s.hashes.erase k
    else s.hashes.insert k ((s.hash k).erase f)).get? k').getD .empty).get? f' = _
  by_cases hk : k = k'
  · subst hk
    have herase := Table.get?_erase (s.hash k) f f'
    split
    · next hempty =>
      rw [MemoryStore.get?_of_isEmpty hempty] at herase
      simpa using herase
    · simp [herase]
  · split <;> simp [hk, hash]

theorem get?_hash_del (s : Server) (k k' f' : String) :
    ((s.apply (.del k)).2.hash k').get? f' = if k = k' then none else (s.hash k').get? f' := by
  show (((s.hashes.erase k).get? k').getD .empty).get? f' = _
  by_cases hk : k = k' <;> simp [hk, hash]

theorem members_del (s : Server) (k k' : String) : (s.apply (.del k)).2.members k' =
    if k = k' then [] else s.members k' := by
  show ((s.sets.erase k).get? k').getD [] = _
  by_cases hk : k = k' <;> simp [hk, members]

theorem members_sadd (s : Server) (k m k' : String) : (s.apply (.sadd k m)).2.members k' =
    if k = k' ∧ m ∉ s.members k then s.members k ++ [m] else s.members k' := by
  by_cases hm : m ∈ s.members k
  · rw [apply, if_pos hm, if_neg fun h => h.2 hm]
  · rw [apply, if_neg hm]
    show ((s.sets.insert k _).get? k').getD [] = _
    by_cases hk : k = k'
    · rw [if_pos ⟨hk, hm⟩]
      simp [hk]
    · rw [if_neg fun h => hk h.1]
      simp [hk, members]

theorem data_apply (s : Server) (c : Command) : (s.apply c).2.data = s.data.after c := by
  cases c with
  | hset k f v => exact Data.ext (funext fun k' => funext (get?_hash_hset s k f v k')) rfl
  | hdel k f => exact Data.ext (funext fun k' => funext (get?_hash_hdel s k f k')) rfl
  | sadd k m =>
    refine Data.ext ?_ (funext fun k' => funext fun m' => propext ?_)
    · show (s.apply (.sadd k m)).2.data.hash = s.data.hash
      rw [apply]
      split <;> rfl
    · show m' ∈ (s.apply (.sadd k m)).2.members k' ↔ (k = k' ∧ m = m') ∨ m' ∈ s.members k'
      rw [members_sadd]
      grind
  | del k =>
    refine Data.ext (funext fun k' => funext (get?_hash_del s k k')) ?_
    refine funext fun k' => funext fun m' => propext ?_
    show m' ∈ (s.apply (.del k)).2.members k' ↔ k ≠ k' ∧ m' ∈ s.members k'
    rw [members_del]
    by_cases hk : k = k' <;> simp [hk]
  | _ => rfl

theorem nodup_members_apply (h : ∀ k, (s.members k).Nodup) (c : Command) (k : String) :
    ((s.apply c).2.members k).Nodup := by
  cases c with
  | sadd k' m =>
    rw [members_sadd]
    split
    · next hm =>
      refine List.nodup_append.mpr ⟨h k', by simp, ?_⟩
      rintro i hi j hj rfl
      exact hm.2 (List.mem_singleton.mp hj ▸ hi)
    · exact h k
  | del k' =>
    rw [members_del]
    split
    · exact List.nodup_nil
    · exact h k
  | _ => exact h k

theorem Holds.apply (h : s.Holds d) (c : Command) : (s.apply c).2.Holds (d.after c) := by
  obtain ⟨hrefused, hnodup, rfl⟩ := h
  refine ⟨?_, nodup_members_apply hnodup c, data_apply s c⟩
  cases c with
  | sadd k m =>
    simp only [Server.apply]
    split <;> exact hrefused
  | _ => exact hrefused

theorem Holds.answers (h : s.Holds d) (c : Command) : d.Answers c (s.apply c).1 := by
  obtain ⟨-, hnodup, rfl⟩ := h
  cases c with
  | hget k f => rfl
  | hvals k =>
    have hperm : (Text.sortOn Prod.fst (s.hash k).entries).Perm (s.hash k).entries :=
      Text.sortBy_perm _
    refine ⟨(Text.sortOn Prod.fst (s.hash k).entries).map Prod.fst, ?_, fun f => ?_, ?_⟩
    · exact (hperm.map Prod.fst).nodup_iff.mpr (s.hash k).nodup
    · rw [(hperm.map Prod.fst).mem_iff, Option.ne_none_iff_exists']
      exact Table.mem_keys
    · rw [List.filterMap_map]
      have hget : ∀ e ∈ Text.sortOn Prod.fst (s.hash k).entries,
          (s.data.hash k ∘ Prod.fst) e = some e.2 := fun e he =>
        Table.get?_eq_some_iff.mpr (hperm.mem_iff.mp he)
      rw [List.filterMap_congr hget]
      exact (congrFun List.filterMap_eq_map _).symm
  | smembers k =>
    have hperm : (Text.sortOn id (s.members k)).Perm (s.members k) := Text.sortBy_perm _
    exact ⟨hperm.nodup_iff.mpr (hnodup k), fun m => hperm.mem_iff⟩
  | _ => trivial

theorem Holds.note (h : s.Holds d) (cs : List Command) : (s.note cs).Holds d := h

theorem Holds.refuses (h : s.Holds d) (c : Command) : s.refuses c = false := by
  rw [Server.refuses, h.1]
  rfl

theorem Holds.foldl (cs : List Command) (h : s.Holds d) :
    (cs.foldl (fun s c => (s.apply c).2) s).Holds (cs.foldl Data.after d) := by
  induction cs generalizing s d with
  | nil => exact h
  | cons c cs ih => exact ih (h.apply c)

theorem keeps : Keeps Holds where
  call c s d h _ := by
    refine ⟨_, _, ?_, (h.note [c]).answers c, (h.note [c]).apply c⟩
    show s.call c = _
    rw [Server.call, h.refuses c]
    rfl
  transaction cs s d h _ := by
    refine ⟨_, ?_, (h.note (.multi :: cs ++ [.exec])).foldl cs⟩
    show s.transaction cs = _
    rw [Server.transaction, if_neg]
    simp [h.refuses]

end Server

end JobBroker.Redis
