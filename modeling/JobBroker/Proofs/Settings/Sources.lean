import JobBroker.Proofs.Settings.Variables
import JobBroker.Settings.Loader

/-!
# Where settings come from

Each setting is what the strongest source gives that has it: the environment, then the local file,
then the file for the environment, then the default file. A setting that no source has is what it is
in the default settings.

* `SettingField.all` : the settings, with their paths and how they are read.
* `SettingsSources.given?` : what the strongest source gives.
* `SettingsSources.settings_of_load` : settings that have been loaded are those that are given.
-/

namespace JobBroker

open Json (defaulting required)
open Setting (at? gives?)

/-! ### The settings -/

namespace Settings

/-- The settings that are texts. The name of the environment is not looked up. -/
def texts : List (List String × (Settings → String)) := [
  (["app", "name"], (·.app.name)),
  (["app", "version"], (·.app.version)),
  (["server", "host"], (·.server.host)),
  (["engine", "hostname"], (·.engine.hostname)),
  (["persistence", "redis", "url"], (·.persistence.redis.url)),
  (["persistence", "redis", "key_prefix"], (·.persistence.redis.keyPrefix)),
  (["logging", "filter"], (·.logging.filter))]

end Settings

/-- A setting with its path. -/
structure SettingField where
  path : List String
  α : Type
  read? : Setting → Option α
  get : Settings → α

namespace SettingField

def all : List SettingField :=
  Settings.texts.map (fun t => ⟨t.1, String, Setting.text?, t.2⟩) ++ [
    ⟨["server", "port"], Nat, Setting.number? UInt16.size, (·.server.port.toNat)⟩,
    ⟨["server", "max_packet_size"], Nat, Setting.number? UInt64.size, (·.server.maxPacketSize)⟩,
    ⟨["server", "max_text_line"], Nat, Setting.number? UInt64.size, (·.server.maxTextLine)⟩,
    ⟨["engine", "long_poll_interval_secs"], Nat, Setting.number? UInt64.size,
      (·.engine.longPollSeconds)⟩,
    ⟨["engine", "max_queue_size"], Nat, Setting.number? UInt64.size, (·.engine.maxQueueSize)⟩,
    ⟨["engine", "worker_disconnect_policy"], DisconnectPolicy,
      Setting.choice? DisconnectPolicy.name DisconnectPolicy.all, (·.engine.disconnectPolicy)⟩,
    ⟨["persistence", "backend"], Backend, Setting.choice? Backend.name Backend.all,
      (·.persistence.backend)⟩,
    ⟨["persistence", "redis", "pool_size"], Nat, Setting.number? UInt64.size,
      (·.persistence.redis.poolSize)⟩,
    ⟨["logging", "json"], Bool, Setting.flag?, (·.logging.json)⟩,
    ⟨["logging", "with_target"], Bool, Setting.flag?, (·.logging.withTarget)⟩]

end SettingField

theorem SettingField.isSettingPath : ∀ f ∈ all, Environment.IsSettingPath f.path := by
  have hpaths : ∀ path ∈ all.map SettingField.path, Environment.IsSettingPath path := by
    decide +kernel
  exact fun f hf => hpaths f.path (List.mem_map_of_mem hf)

/-! ### Reading sections -/

theorem Setting.number?_lt {bound n : Nat} {v : Setting} (h : v.number? bound = some n) :
    n < bound :=
  of_decide_eq_true (Option.filter_eq_some_iff.mp h).2

theorem required_eq_defaulting {α β : Type} {default a : α} {value : β → Option α} {o : Option β}
    (h : required value o = some a) : defaulting default value o = some a := by
  cases o with
  | none => exact nomatch h
  | some v => exact h

/-- The port comes from a number of 16 bits, so it is that number. -/
theorem defaulting_port {n : Nat} {o : Option Setting}
    (h : defaulting ServerSettings.default.port.toNat (Setting.number? UInt16.size) o = some n) :
    (UInt16.ofNat n).toNat = n := by
  rw [UInt16.toNat_ofNat', Nat.mod_eq_of_lt]
  cases o with
  | none => exact Option.some.inj h ▸ UInt16.toNat_lt _
  | some v => exact Setting.number?_lt h

@[simp] theorem Setting.bind_at?_nil (o : Option Setting) : o.bind (at? []) = o := by
  cases o <;> rfl

section Sections

variable {o : Option Setting} (ho : ∀ v ∈ o, ∃ es, v = .table es)
include ho

/-- A section that is left out is read as one without entries. -/
theorem read_section {α : Type} {default x : α} {read : Setting → Option α}
    (h : defaulting default read o = some x) (hempty : read (.table []) = some default) :
    ∃ es, read (.table es) = some x ∧
      ∀ k path, o.bind (at? (k :: path)) = (Table.lookup k es).bind (at? path) := by
  cases o with
  | none => exact ⟨[], hempty.trans h, fun _ _ => rfl⟩
  | some v =>
    obtain ⟨es, rfl⟩ := ho v rfl
    exact ⟨es, h, fun _ _ => rfl⟩

theorem AppSettings.of_read {x : AppSettings}
    (h : defaulting .default (AppSettings.read .lenient) o = some x) :
    defaulting default.name Setting.text? (o.bind (at? ["name"])) = some x.name ∧
      defaulting default.version Setting.text? (o.bind (at? ["version"])) = some x.version := by
  cases o with
  | none =>
    obtain rfl : default = x := Option.some.inj h
    exact ⟨rfl, rfl⟩
  | some v =>
    obtain ⟨es, rfl⟩ := ho v rfl
    have h : AppSettings.read .lenient (.table es) = some x := h
    simp only [AppSettings.read, SettingsFormat.lenient, Setting.fields?, List.map, Option.pure_def,
      Option.bind_eq_bind, Option.bind_some, Option.bind_eq_some_iff, Option.some.injEq] at h
    obtain ⟨name, hname, version, hversion, -, -, rfl⟩ := h
    simp [at?, Setting.entries, required_eq_defaulting hname, required_eq_defaulting hversion]

theorem ServerSettings.of_read {x : ServerSettings}
    (h : defaulting .default (ServerSettings.read .lenient) o = some x) :
    defaulting default.host Setting.text? (o.bind (at? ["host"])) = some x.host ∧
      defaulting default.port.toNat (Setting.number? UInt16.size) (o.bind (at? ["port"])) =
        some x.port.toNat ∧
      defaulting default.maxPacketSize (Setting.number? UInt64.size)
        (o.bind (at? ["max_packet_size"])) = some x.maxPacketSize ∧
      defaulting default.maxTextLine (Setting.number? UInt64.size)
        (o.bind (at? ["max_text_line"])) = some x.maxTextLine := by
  obtain ⟨es, h, hat⟩ := read_section ho h rfl
  simp only [ServerSettings.read, SettingsFormat.lenient, SettingsFormat.size?, Setting.fields?,
    List.map, Option.pure_def, Option.bind_eq_bind, Option.bind_some, Option.bind_eq_some_iff,
    Option.some.injEq] at h
  obtain ⟨host, hhost, port, hport, packet, hpacket, line, hline, rfl⟩ := h
  simp [hat, hhost, hport, hpacket, hline, defaulting_port hport]

theorem EngineSettings.of_read {x : EngineSettings}
    (h : defaulting .default (EngineSettings.read .lenient) o = some x) :
    defaulting default.hostname Setting.text? (o.bind (at? ["hostname"])) = some x.hostname ∧
      defaulting default.longPollSeconds (Setting.number? UInt64.size)
        (o.bind (at? ["long_poll_interval_secs"])) = some x.longPollSeconds ∧
      defaulting default.maxQueueSize (Setting.number? UInt64.size)
        (o.bind (at? ["max_queue_size"])) = some x.maxQueueSize ∧
      defaulting default.disconnectPolicy
        (Setting.choice? DisconnectPolicy.name DisconnectPolicy.all)
        (o.bind (at? ["worker_disconnect_policy"])) = some x.disconnectPolicy := by
  obtain ⟨es, h, hat⟩ := read_section ho h rfl
  simp only [EngineSettings.read, SettingsFormat.lenient, SettingsFormat.size?, Setting.fields?,
    List.map, Option.pure_def, Option.bind_eq_bind, Option.bind_some, Option.bind_eq_some_iff,
    Option.some.injEq] at h
  obtain ⟨hostname, hhostname, poll, hpoll, queue, hqueue, policy, hpolicy, rfl⟩ := h
  simp [hat, hhostname, hpoll, hqueue, hpolicy]

theorem RedisSettings.of_read {x : RedisSettings}
    (h : defaulting .default (RedisSettings.read .lenient) o = some x) :
    defaulting default.url Setting.text? (o.bind (at? ["url"])) = some x.url ∧
      defaulting default.poolSize (Setting.number? UInt64.size) (o.bind (at? ["pool_size"])) =
        some x.poolSize ∧
      defaulting default.keyPrefix Setting.text? (o.bind (at? ["key_prefix"])) =
        some x.keyPrefix := by
  obtain ⟨es, h, hat⟩ := read_section ho h rfl
  simp only [RedisSettings.read, SettingsFormat.lenient, SettingsFormat.size?, Setting.fields?,
    List.map, Option.pure_def, Option.bind_eq_bind, Option.bind_some, Option.bind_eq_some_iff,
    Option.some.injEq] at h
  obtain ⟨url, hurl, pool, hpool, keyPrefix, hkeyPrefix, rfl⟩ := h
  simp [hat, hurl, hpool, hkeyPrefix]

theorem PersistenceSettings.of_read {x : PersistenceSettings}
    (hredis : ∀ v ∈ o.bind (at? ["redis"]), ∃ es, v = .table es)
    (h : defaulting .default (PersistenceSettings.read .lenient) o = some x) :
    defaulting default.backend (Setting.choice? Backend.name Backend.all)
        (o.bind (at? ["backend"])) = some x.backend ∧
      defaulting RedisSettings.default.url Setting.text? (o.bind (at? ["redis", "url"])) =
        some x.redis.url ∧
      defaulting RedisSettings.default.poolSize (Setting.number? UInt64.size)
        (o.bind (at? ["redis", "pool_size"])) = some x.redis.poolSize ∧
      defaulting RedisSettings.default.keyPrefix Setting.text?
        (o.bind (at? ["redis", "key_prefix"])) = some x.redis.keyPrefix := by
  obtain ⟨es, h, hat⟩ := read_section ho h rfl
  simp only [PersistenceSettings.read, SettingsFormat.lenient, Setting.fields?, List.map,
    Option.pure_def, Option.bind_eq_bind, Option.bind_some, Option.bind_eq_some_iff,
    Option.some.injEq] at h
  obtain ⟨backend, hbackend, redis, hread, rfl⟩ := h
  simp only [hat, Setting.bind_at?_nil] at hredis ⊢
  exact ⟨hbackend, RedisSettings.of_read hredis hread⟩

theorem LoggingSettings.of_read {x : LoggingSettings}
    (h : defaulting .default (LoggingSettings.read .lenient) o = some x) :
    defaulting default.filter Setting.text? (o.bind (at? ["filter"])) = some x.filter ∧
      defaulting default.json Setting.flag? (o.bind (at? ["json"])) = some x.json ∧
      defaulting default.withTarget Setting.flag? (o.bind (at? ["with_target"])) =
        some x.withTarget := by
  obtain ⟨es, h, hat⟩ := read_section ho h rfl
  simp only [LoggingSettings.read, SettingsFormat.lenient, Setting.fields?, List.map,
    Option.pure_def, Option.bind_eq_bind, Option.bind_some, Option.bind_eq_some_iff,
    Option.some.injEq] at h
  obtain ⟨filter, hfilter, json, hjson, target, htarget, rfl⟩ := h
  simp [hat, hfilter, hjson, htarget]

end Sections

/-- What stands before the end of the way to a setting is a table. -/
theorem Setting.IsSettledAt.exists_table {k : String} {path : List String} {v : Setting} :
    ∀ (p : List String) {root : Setting}, root.IsSettledAt (p ++ k :: path) → v ∈ at? p root →
      ∃ es, v = .table es
  | [], _, h, hv => Option.some.inj hv ▸ isTable_iff.mp h.1
  | _ :: p, _, ⟨_, _, _, hw⟩, hv => by
    obtain ⟨w, hlookup, hv⟩ := Option.bind_eq_some_iff.mp hv
    exact exists_table p (hw w hlookup) hv

theorem Setting.IsSettledAt.exists_table_of_lookup {s k : String} {path : List String}
    {es : List (String × Setting)} (h : (table es).IsSettledAt (s :: k :: path)) :
    ∀ v ∈ Table.lookup s es, ∃ ks, v = table ks := fun _ hv =>
  h.exists_table [s] ((bind_at?_nil _).trans hv)

/-- Every setting is read from its place in the tree. -/
theorem Settings.of_read {es : List (String × Setting)} {settings : Settings}
    (hes : ∀ f ∈ SettingField.all, (Setting.table es).IsSettledAt f.path)
    (h : Settings.read .lenient (.table es) = some settings) :
    ∀ f ∈ SettingField.all,
      defaulting (f.get .default) f.read? (at? f.path (.table es)) = some (f.get settings) := by
  simp only [SettingField.all, Settings.texts, List.map, List.cons_append, List.nil_append,
    List.forall_mem_cons] at hes ⊢
  obtain ⟨happ, -, hserver, hengine, hredis, -, hlogging, -⟩ := hes
  simp only [Settings.read, SettingsFormat.lenient, Setting.fields?, List.map, Option.pure_def,
    Option.bind_eq_bind, Option.bind_some, Option.bind_eq_some_iff, Option.some.injEq] at h
  obtain ⟨app, happ', server, hserver', engine, hengine', persistence, hpersistence', logging,
    hlogging', rfl⟩ := h
  have happ := AppSettings.of_read happ.exists_table_of_lookup happ'
  have hserver := ServerSettings.of_read hserver.exists_table_of_lookup hserver'
  have hengine := EngineSettings.of_read hengine.exists_table_of_lookup hengine'
  have hpersistence := PersistenceSettings.of_read hredis.exists_table_of_lookup
    (fun _ hv => hredis.exists_table ["persistence", "redis"] hv) hpersistence'
  have hlogging := LoggingSettings.of_read hlogging.exists_table_of_lookup hlogging'
  exact ⟨happ.1, happ.2, hserver.1, hengine.1, hpersistence.2.1, hpersistence.2.2.2, hlogging.1,
    hserver.2.1, hserver.2.2.1, hserver.2.2.2, hengine.2.1, hengine.2.2.1, hengine.2.2.2,
    hpersistence.1, hpersistence.2.2.1, hlogging.2.1, hlogging.2.2, by simp⟩

/-! ### Sources -/

namespace Setting

/-- The tables of a plain file: no name is a path, and the settings are where they belong. -/
structure IsPlain (layer : Setting) : Prop where
  simple : ∀ e ∈ layer.entries, SettingStep.IsSimple e.1
  plainAt : ∀ f ∈ SettingField.all, layer.IsPlainAt f.path

instance : DecidablePred IsPlain := fun layer =>
  decidable_of_iff ((∀ e ∈ layer.entries, SettingStep.IsSimple e.1) ∧
    ∀ f ∈ SettingField.all, layer.IsPlainAt f.path)
    ⟨fun h => ⟨h.1, h.2⟩, fun h => ⟨h.simple, h.plainAt⟩⟩

end Setting

namespace SettingsSources

variable {s : SettingsSources}

/-- The tables of a file. Nothing is a file that has no name before `.toml`. -/
def table? (s : SettingsSources) (stem : String) : Option Setting :=
  if stem.toList.getLast?.any (· ≠ '/') then (s.file? (stem ++ ".toml")).bind Toml.ofText? else none

/-- What the strongest source gives that has the setting. -/
def given? (s : SettingsSources) (path : List String) : Option Setting :=
  ((Environment.text? s.bindings path).map Environment.valueOfText).or
    (((s.table? "local").bind (gives? path)).or
      (((s.table? s.environment).bind (gives? path)).or
        ((s.table? "default").bind (gives? path))))

/-- The files are plain tables, and variables are named after settings. -/
structure ArePlain (s : SettingsSources) : Prop where
  files : ∀ stem ∈ ["default", s.environment, "local"], ∀ layer ∈ s.table? stem, layer.IsPlain
  bindings : Environment.IsPlain s.bindings

theorem filterMap_of_mapM {α β : Type} {f : α → Option β} {xs : List α} {ys : List β}
    (h : xs.mapM f = some ys) : xs.filterMap f = ys := by
  induction xs generalizing ys with
  | nil => simpa using h
  | cons x xs ih =>
    simp only [List.mapM_cons, Option.bind_eq_bind, Option.bind_eq_some_iff, Option.pure_def,
      Option.some.injEq] at h
    obtain ⟨y, hy, zs, hzs, rfl⟩ := h
    rw [List.filterMap_cons_some hy, ih hzs]

/-- The layers are those of the files that are there, and that of the environment. -/
theorem layers?_eq_some {layers : List Setting} (h : s.layers? = some layers) :
    layers = ["default", s.environment, "local"].filterMap s.table? ++
      [Environment.layer s.bindings] := by
  simp only [layers?, Option.bind_eq_bind, Option.bind_eq_some_iff, Option.pure_def,
    Option.some.injEq] at h
  obtain ⟨files, hfiles, rfl⟩ := h
  have htables := filterMap_of_mapM hfiles
  rw [fileNames, List.filterMap_filterMap, List.filterMap_map, List.filterMap_filter] at htables
  rw [← htables]
  rfl

/-- Each file is laid over the ones before it, so the last that has a setting gives it. -/
theorem stands_files {path : List String} {layers : List Setting}
    (hplain : ∀ layer ∈ layers, layer.IsPlainAt path ∧
      ∀ e ∈ layer.entries, SettingStep.IsSimple e.1) {root : Setting} (hpath : path ≠ [])
    (hroot : root.Stands path) :
    (layers.foldl Setting.lay root).Stands path ∧ at? path (layers.foldl Setting.lay root) =
      layers.foldl (fun below layer => (gives? path layer).or below) (at? path root) := by
  induction layers generalizing root with
  | nil => exact ⟨hroot, rfl⟩
  | cons layer layers ih =>
    obtain ⟨⟨hlayer, hsimple⟩, hplain⟩ := List.forall_mem_cons.mp hplain
    obtain ⟨hstands, hat⟩ := hroot.lay hpath hsimple hlayer
    rw [List.foldl_cons, List.foldl_cons, ← hat]
    exact ih hplain hstands

theorem foldl_or {α β γ : Type} (f : α → Option β) (g : β → Option γ) (xs : List α)
    (below : Option γ) : (xs.filterMap f).foldl (fun below b => (g b).or below) below =
      xs.foldl (fun below a => ((f a).bind g).or below) below := by
  rw [List.foldl_filterMap]
  congr 1
  funext below a
  cases f a <;> rfl

/-- At the place of a setting the layers make what the strongest source gives. -/
theorem at?_merge (h : s.ArePlain) {layers : List Setting} (hlayers : s.layers? = some layers)
    {f : SettingField} (hf : f ∈ SettingField.all) :
    (Setting.merge layers).IsSettledAt f.path ∧
      at? f.path (Setting.merge layers) = s.given? f.path := by
  have hpath := SettingField.isSettingPath f hf
  have hplain : ∀ layer ∈ ["default", s.environment, "local"].filterMap s.table?,
      layer.IsPlainAt f.path ∧ ∀ e ∈ layer.entries, SettingStep.IsSimple e.1 := by
    intro layer hlayer
    obtain ⟨stem, hstem, htable⟩ := List.mem_filterMap.mp hlayer
    have hlayer := h.files stem hstem layer htable
    exact ⟨hlayer.plainAt f hf, hlayer.simple⟩
  obtain ⟨hfiles, hat⟩ := stands_files hplain hpath.ne_nil (Setting.Stands.empty hpath.ne_nil)
  obtain ⟨hall, hat'⟩ := Environment.stands_lay h.bindings hpath hfiles
  obtain ⟨hsettled, hat''⟩ := hall.again hpath.ne_nil
  have hmerge : Setting.merge layers = Setting.lay (.table []) (Setting.lay
      ((["default", s.environment, "local"].filterMap s.table?).foldl Setting.lay (.table []))
      (Environment.layer s.bindings)) := by
    rw [Setting.merge, layers?_eq_some hlayers, List.foldl_append]
    rfl
  rw [hmerge]
  refine ⟨hsettled, ?_⟩
  rw [hat'', hat', hat, Setting.at?_empty hpath.ne_nil, given?, foldl_or]
  simp only [List.foldl_cons, List.foldl_nil, Option.or_none]

theorem load_eq_ok {settings : Settings} (h : s.load = .ok settings) :
    ∃ layers loaded, s.layers? = some layers ∧
      Settings.read .lenient (Setting.merge layers) = some loaded ∧
      settings = { loaded with app.environment := s.environment } ∧ settings.problem? = none := by
  rw [load] at h
  split at h
  · cases h
  · next loaded hread =>
    obtain ⟨layers, hlayers, hread⟩ := Option.bind_eq_some_iff.mp hread
    refine ⟨layers, loaded, hlayers, hread, ?_⟩
    dsimp only at h
    split at h
    · cases h
    · next hproblem => exact Except.ok.inj h ▸ ⟨rfl, hproblem⟩

/-- No setting of the list is the name of the environment. -/
theorem get_environment (settings : Settings) (e : String) :
    ∀ f ∈ SettingField.all, f.get { settings with app.environment := e } = f.get settings := by
  simp [SettingField.all, Settings.texts]

/-- Settings that can be loaded are what the strongest sources give, and meet all conditions. A text
that a source gives is kept as it stands. -/
theorem settings_of_load (h : s.ArePlain) {settings : Settings} (hload : s.load = .ok settings) :
    (∀ f ∈ SettingField.all,
      defaulting (f.get .default) f.read? (s.given? f.path) = some (f.get settings)) ∧
    (∀ t ∈ Settings.texts, ∀ text, s.given? t.1 = some (.text text) → t.2 settings = text) ∧
    settings.app.environment = s.environment ∧ settings.problem? = none := by
  obtain ⟨layers, loaded, hlayers, hread, rfl, hproblem⟩ := load_eq_ok hload
  have hat := fun f (hf : f ∈ SettingField.all) => at?_merge h hlayers hf
  obtain ⟨es, hes⟩ : ∃ es, Setting.merge layers = .table es :=
    (hat _ List.mem_cons_self).1.exists_table [] rfl
  rw [hes] at hread hat
  have hall : ∀ f ∈ SettingField.all, defaulting (f.get .default) f.read? (s.given? f.path) =
      some (f.get { loaded with app.environment := s.environment }) := fun f hf => by
    rw [get_environment loaded _ f hf, ← (hat f hf).2]
    exact Settings.of_read (fun f hf => (hat f hf).1) hread f hf
  refine ⟨hall, fun t ht text hgiven => ?_, rfl, hproblem⟩
  have hfield := hall _ (List.mem_append_left _ (List.mem_map_of_mem ht))
  rw [hgiven] at hfield
  exact (Option.some.inj hfield).symm

/-- Two files, a variable that is a setting and one that is none. -/
def layered : SettingsSources :=
  ofFiles [("default.toml", "[server]\nport = 5000\n[engine]\nhostname = 'broker-a'\n"),
      ("local.toml", "[Server]\nport = 5001\n")]
    [("FOREMAN__ENGINE__MAX_QUEUE_SIZE", "7"), ("PATH", "/bin")]

theorem arePlain_layered : layered.ArePlain where
  files := by decide +kernel
  bindings :=
    { distinct := by decide +kernel
      named := List.forall_mem_cons.mpr
        ⟨fun _ => ⟨["engine", "max_queue_size"], by decide +kernel⟩,
          List.forall_mem_cons.mpr ⟨fun h => absurd h (by decide +kernel), by simp⟩⟩ }

theorem settings_of_layered : layered.ArePlain ∧ ∃ settings, layered.load = .ok settings ∧
    settings.server.port = 5001 ∧ settings.engine.hostname = "broker-a" ∧
    settings.engine.maxQueueSize = 7 ∧
    (∀ f ∈ SettingField.all,
      defaulting (f.get .default) f.read? (layered.given? f.path) = some (f.get settings)) ∧
    settings.app.environment = "development" ∧ settings.problem? = none := by
  have hload : layered.load = .ok { Settings.default with
      server.port := 5001, engine.hostname := "broker-a", engine.maxQueueSize := 7 } := by
    decide +kernel
  obtain ⟨hall, -, henvironment, hproblem⟩ := settings_of_load arePlain_layered hload
  exact ⟨arePlain_layered, _, hload, rfl, rfl, rfl, hall, henvironment, hproblem⟩

/-- A host name of digits in the environment is taken for a number, which has no zeros in front. -/
theorem hostname_of_digits :
    (ofFiles [] [("FOREMAN__ENGINE__HOSTNAME", "007")]).ArePlain ∧
    Environment.text? [("FOREMAN__ENGINE__HOSTNAME", "007")] ["engine", "hostname"] = some "007" ∧
    ∃ settings, (ofFiles [] [("FOREMAN__ENGINE__HOSTNAME", "007")]).load = .ok settings ∧
      settings.engine.hostname = "7" := by
  refine ⟨⟨by decide +kernel, ?_⟩, by decide +kernel,
    { Settings.default with engine.hostname := "7" }, by decide +kernel, rfl⟩
  exact
    { distinct := by decide +kernel
      named := List.forall_mem_cons.mpr
        ⟨fun _ => ⟨["engine", "hostname"], by decide +kernel⟩, by simp⟩ }

end SettingsSources

end JobBroker
