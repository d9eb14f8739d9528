import LuaBundle.Proofs.Bundle.Acceptance
import LuaBundle.Proofs.Bundle.Reading

/-! What the names in a bundle stand for. Its statements fill two tables, and the function that
replaces `require` looks a name up in both: this finds the very script that the analysis found. -/

namespace LuaBundle

namespace Bundle

namespace Statement

/-- The key and the body that a statement stores as a loader. -/
def loader? : Statement → Option (Text × Text)
  | loader key body => some (key, body)
  | _ => none

/-- The name and the key that a statement stores as an alias. -/
def alias? : Statement → Option (Text × Text)
  | synonym name key => some (name, key)
  | _ => none

end Statement

/-- The tables that the statements of a bundle fill. -/
structure Tables where
  loaders : OrderedMap Text Text
  aliases : OrderedMap Text Text

namespace Tables

/-- Carries out the assignment that a statement is. -/
def assign (t : Tables) : Statement → Tables
  | .loader key body => { t with loaders := t.loaders.insert key body }
  | .synonym name key => { t with aliases := t.aliases.insert name key }
  | .run _ => t

def ofStatements (ss : List Statement) : Tables := ss.foldl assign ⟨[], []⟩

/-- The key that a name stands for: the one under it among the aliases, or the name itself. -/
def keyOf (t : Tables) (name : Text) : Text := (t.aliases.get? name).getD name

/-- The body of the loader that a name leads to. -/
def lookUp (t : Tables) (name : Text) : Option Text := t.loaders.get? (t.keyOf name)

theorem ofStatements_eq (ss : List Statement) : ofStatements ss =
    ⟨.ofList (ss.filterMap Statement.loader?), .ofList (ss.filterMap Statement.alias?)⟩ := by
  induction ss using List.reverseRecOn with
  | nil => rfl
  | append_singleton ss s ih =>
    rw [ofStatements, List.foldl_append]
    change assign (ofStatements ss) s = _
    rw [ih, List.filterMap_append, List.filterMap_append]
    cases s <;>
      simp [assign, Statement.loader?, Statement.alias?, OrderedMap.ofList, List.filterMap_cons]

end Tables

section Registered

variable {m : Manifest} {modules : List EmbeddedModule} {source : Text → Text}

theorem loader?_runEntry (modules : List EmbeddedModule) (entry : ManifestEntry) :
    (runEntry modules entry).loader? = none := by
  unfold runEntry
  split <;> rfl

theorem alias?_runEntry (modules : List EmbeddedModule) (entry : ManifestEntry) :
    (runEntry modules entry).alias? = none := by
  unfold runEntry
  split <;> rfl

theorem filterMap_loader?_registered (modules : List EmbeddedModule) (entry : ManifestEntry) :
    (registered source modules entry).filterMap Statement.loader? =
      modules.map fun m => (m.key, moduleBody (source m.path)) := by
  rw [registered, List.filterMap_append, List.filterMap_flatMap, List.filterMap_cons_none
    (loader?_runEntry modules entry), List.filterMap_nil, List.append_nil]
  induction modules with
  | nil => rfl
  | cons first rest ih =>
    have hsynonyms : (first.aliases.map fun name => Statement.synonym name first.key).filterMap
        Statement.loader? = [] := by simp [Statement.loader?]
    rw [List.flatMap_cons, ih, register, List.filterMap_cons, hsynonyms]
    rfl

theorem mem_filterMap_alias?_registered {entry : ManifestEntry} {name key : Text} :
    (name, key) ∈ (registered source modules entry).filterMap Statement.alias? ↔
      ∃ m ∈ modules, name ∈ m.aliases ∧ m.key = key := by
  rw [registered, List.filterMap_append, List.filterMap_cons_none (alias?_runEntry modules entry),
    List.filterMap_nil, List.append_nil]
  simp only [List.mem_filterMap, List.mem_flatMap, register, List.mem_cons, List.mem_map]
  constructor
  · rintro ⟨s, ⟨m, hm, rfl | ⟨synonym, hsynonym, rfl⟩⟩, hs⟩
    · cases hs
    · simp only [Statement.alias?, Option.some.injEq, Prod.mk.injEq] at hs
      exact ⟨m, hm, hs.1 ▸ hsynonym, hs.2⟩
  · rintro ⟨m, hm, hname, rfl⟩
    exact ⟨_, ⟨m, hm, .inr ⟨name, hname, rfl⟩⟩, rfl⟩

theorem eq_of_mem_keys (hc : m.Consistent) (hg : EmbeddedModule.Groups m modules)
    {owner other : EmbeddedModule} (howner : owner ∈ modules) (hother : other ∈ modules)
    {key : Text} (hkey : key ∈ owner.keys) (hkey' : key ∈ other.keys) : owner = other := by
  have hpath : owner.path = other.path :=
    hc ⟨key, owner.path⟩ (hg.mem_keys.mp ⟨owner, howner, rfl, hkey⟩) ⟨key, other.path⟩
      (hg.mem_keys.mp ⟨other, hother, rfl, hkey'⟩) rfl
  have hnodup : (modules.map (·.path)).Nodup := hg.paths ▸ Manifest.nodup_distinct _
  exact List.inj_on_of_nodup_map hnodup howner hother hpath

/-- A name that a module has leads to its loader, whether it is the key or an alias. -/
theorem lookUp_registered (source : Text → Text) (hc : m.Consistent)
    (hg : EmbeddedModule.Groups m modules)
    {owner : EmbeddedModule} (howner : owner ∈ modules) {name : Text} (hname : name ∈ owner.keys)
    (entry : ManifestEntry) :
    (Tables.ofStatements (registered source modules entry)).keyOf name = owner.key ∧
      (Tables.ofStatements (registered source modules entry)).lookUp name =
        some (moduleBody (source owner.path)) := by
  have hkeyOf : (Tables.ofStatements (registered source modules entry)).keyOf name =
      owner.key := by
    rw [Tables.keyOf, Tables.ofStatements_eq]
    by_cases halias : name ∈ owner.aliases
    · rw [OrderedMap.get?_ofList_of_forall (v := owner.key), Option.getD_some]
      · exact List.mem_map.mpr ⟨(name, owner.key),
          mem_filterMap_alias?_registered.mpr ⟨owner, howner, halias, rfl⟩, rfl⟩
      · rintro ⟨synonym, key⟩ hmem rfl
        obtain ⟨other, hother, hmem', rfl⟩ := mem_filterMap_alias?_registered.mp hmem
        rw [eq_of_mem_keys hc hg howner hother hname (List.mem_cons_of_mem _ hmem')]
    · rw [OrderedMap.get?_ofList_eq_none, Option.getD_none]
      · exact (List.mem_cons.mp hname).resolve_right halias
      · intro hmem
        obtain ⟨⟨synonym, key⟩, hentry, rfl⟩ := List.mem_map.mp hmem
        obtain ⟨other, hother, hmem', _⟩ := mem_filterMap_alias?_registered.mp hentry
        rw [eq_of_mem_keys hc hg howner hother hname (List.mem_cons_of_mem _ hmem')] at halias
        exact halias hmem'
  refine ⟨hkeyOf, ?_⟩
  rw [Tables.lookUp, hkeyOf, Tables.ofStatements_eq, filterMap_loader?_registered]
  refine OrderedMap.get?_ofList_of_forall ?_ ?_
  · exact List.mem_map.mpr ⟨_, List.mem_map_of_mem howner, rfl⟩
  · intro e he hkey
    obtain ⟨other, hother, rfl⟩ := List.mem_map.mp he
    have hsame : owner = other :=
      eq_of_mem_keys hc hg howner hother List.mem_cons_self (hkey ▸ List.mem_cons_self)
    rw [hsame]

theorem key_eq_firstKey (hg : EmbeddedModule.Groups m modules) {owner : EmbeddedModule}
    (howner : owner ∈ modules) : owner.key = m.firstKey owner.path := by
  rw [Manifest.firstKey, ← hg.keys owner howner]
  rfl

/-- The last statement runs the file of the entry, by the key of its loader. -/
theorem runEntry_eq (hg : EmbeddedModule.Groups m modules) {entry : ManifestEntry}
    (hentry : entry ∈ m) : runEntry modules entry = .run (m.firstKey entry.path) := by
  obtain ⟨owner, howner, hpath, _⟩ := hg.mem_keys.mpr (show ⟨entry.key, entry.path⟩ ∈ m from hentry)
  unfold runEntry
  split
  · rename_i found hfind
    have hfound : found.path = entry.path := by simpa using List.find?_some hfind
    rw [key_eq_firstKey hg (List.mem_of_find?_eq_some hfind), hfound]
  · rename_i hfind
    exact absurd hpath (by simpa using List.find?_eq_none.mp hfind owner howner)

theorem loaders_eq (hg : EmbeddedModule.Groups m modules) (entry : ManifestEntry) :
    (registered source modules entry).filterMap Statement.loader? =
      m.files.map fun path => (m.firstKey path, moduleBody (source path)) := by
  rw [filterMap_loader?_registered, ← hg.paths, List.map_map]
  refine List.map_congr_left fun owner howner => ?_
  rw [key_eq_firstKey hg howner]
  rfl

end Registered

end Bundle

namespace ModuleGraph

open LuaBundle.Bundle

/-- The statements `ss` link the program of `g`: its names lead to the scripts they stand for. -/
structure Links (w : Workspace) (roots : List Text) (g : ModuleGraph) (ss : List Statement) :
    Prop where
  /-- The loaders are those of the scripts of the program, one for each. -/
  loaders : (ss.filterMap Statement.loader?).Perm
    (g.files.map fun file => (g.manifest.firstKey file.path, moduleBody file.text))
  /-- No two of them have one key. -/
  nodup : (g.files.map fun file => g.manifest.firstKey file.path).Nodup
  sites : ∀ file ∈ g.files, ∀ site ∈ file.requires, ∀ name, site.moduleName = some name →
    ModuleName.isBuiltin name = false → ∃ target ∈ g.files,
      ResolvedModule.find w roots file.path name = .ok (.script name target.path) ∧
        w.readText target.path = .ok target.text ∧
        (Tables.ofStatements ss).keyOf name = g.manifest.firstKey target.path ∧
        (Tables.ofStatements ss).lookUp name = some (moduleBody target.text)
  entry : ss.getLast? = some (.run (g.manifest.firstKey g.entry))

variable {w : Workspace} {entryPath : Text} {limit : Number} {searchRoots : List Text}
  {g : ModuleGraph} {events : List Event}

theorem nodup_firstKey (hc : Manifest.Consistent g.manifest)
    (h : ofProgram w entryPath limit searchRoots = (.ok g, events)) :
    (g.files.map fun file => g.manifest.firstKey file.path).Nodup := by
  have hmap : (g.files.map fun file => g.manifest.firstKey file.path) =
      (g.files.map (·.path)).map g.manifest.firstKey := by rw [List.map_map]; rfl
  rw [hmap]
  refine List.Nodup.map_on ?_ (nodup_paths h)
  intro path hpath path' hpath' hkey
  have hmem : ∀ p ∈ g.files.map (·.path), ⟨g.manifest.firstKey p, p⟩ ∈ g.manifest := by
    intro p hp
    obtain ⟨key, he⟩ := Manifest.mem_files.mp ((mem_files_manifest h).mpr hp)
    exact Manifest.mem_of_firstKey he
  exact hc _ (hmem path hpath) _ (hmem path' hpath') hkey

/-- The bundle of a program links it. -/
theorem links_ofManifest {version text : Text}
    (h : ofProgram w entryPath limit searchRoots = (.ok g, events))
    (hb : ofManifest w version g.manifest = .ok text) :
    ∃ parts ss,
      text = Text.joinWith [Text.lineFeed] (header version g.manifest :: prelude :: parts) ∧
      parts.map Statement.ofText? = ss.map some ∧
      Links w (rootsOf w g.entry searchRoots) g ss := by
  rcases EmbeddedModule.ofManifest_cases g.manifest with
    ⟨modules, hmodules, hc, hgroups⟩ | ⟨key, first, second, herror, _⟩
  · obtain ⟨source, hsource, hstatements⟩ := statements_manifest h hmodules hgroups
    rw [ofManifest, hstatements] at hb
    refine ⟨_, registered source modules ⟨ModuleKey.ofEntry g.entry, g.entry⟩,
      (Except.ok.inj hb).symm, ?_, ?_, nodup_firstKey hc h, ?_, ?_⟩
    · rw [List.map_map]
      exact List.map_congr_left fun s _ => Statement.ofText?_text s
    · have hperm : (Manifest.files g.manifest).Perm (g.files.map (·.path)) :=
        (List.perm_ext_iff_of_nodup (Manifest.nodup_distinct _) (nodup_paths h)).mpr
          fun path => mem_files_manifest h
      rw [loaders_eq hgroups]
      convert hperm.map _ using 1
      rw [List.map_map]
      refine List.map_congr_left fun file hfile => ?_
      simp only [Function.comp_apply, hsource file hfile]
    · intro file hfile site hsite name hname hbuiltin
      obtain ⟨target, htarget, hr, hfind⟩ := exists_target h hfile hsite hname hbuiltin
      refine ⟨target, htarget, hfind, ((isProgram_of_ofProgram h).scanned target htarget).1, ?_⟩
      have hentry : ⟨name, target.path⟩ ∈ g.manifest :=
        (mem_manifest_iff h).mpr (.inl ⟨_, hr, rfl⟩)
      obtain ⟨owner, howner, hpath, hkey⟩ := hgroups.mem_keys.mpr hentry
      have hlook := lookUp_registered source hc hgroups howner hkey
        ⟨ModuleKey.ofEntry g.entry, g.entry⟩
      rwa [key_eq_firstKey hgroups howner, hpath, hsource target htarget] at hlook
    · rw [registered, List.getLast?_concat, runEntry_eq hgroups]
      exact List.mem_of_getLast? (getLast?_manifest g)
  · rw [ofManifest, statements_eq_error (getLast?_manifest g) herror] at hb
    cases hb

set_option maxRecDepth 100000 in
theorem links_diamond :
    ∃ g events text parts ss, ofProgram diamond "main.lua" defaultLimit [] = (.ok g, events) ∧
      ofManifest diamond version g.manifest = .ok text ∧
      text = Text.joinWith [Text.lineFeed] (header version g.manifest :: prelude :: parts) ∧
      parts.map Statement.ofText? = ss.map some ∧
      Links diamond (rootsOf diamond g.entry []) g ss := by
  obtain ⟨g, events, h, hmanifest⟩ := manifest_diamond
  have hbundled : (ofManifest diamond version g.manifest).toOption.isSome = true := by
    rw [hmanifest]
    decide +kernel
  cases hb : ofManifest diamond version g.manifest with
  | error error =>
    rw [hb] at hbundled
    cases hbundled
  | ok text =>
    obtain ⟨parts, ss, hlinks⟩ := links_ofManifest h hb
    exact ⟨g, events, text, parts, ss, h, hb, hlinks⟩

end ModuleGraph

end LuaBundle
