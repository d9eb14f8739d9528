import LuaBundle.Proofs.Bundle.Linking

/-! The names that a bundle leaves to the host. A name that the analysis takes for a module of the
host is no alias in the bundle of the program, and it has a loader only where it is the key of the
entry: then the function that replaces `require` runs the entry in place of the host's module. -/

namespace LuaBundle

open LuaBundle.Bundle

namespace ModuleGraph

/-- What the statements of a bundle make of a name that the host provides. -/
structure HostName (g : ModuleGraph) (entryText : Text) (ss : List Statement) (name : Text) :
    Prop where
  not_alias : ∀ key, .synonym name key ∉ ss
  loader_iff : ∀ body, .loader name body ∈ ss ↔
    name = ModuleKey.ofEntry g.entry ∧ body = moduleBody entryText
  lookUp : (Tables.ofStatements ss).lookUp name =
    if name = ModuleKey.ofEntry g.entry then some (moduleBody entryText) else none

section Registered

variable {m : Manifest} {modules : List EmbeddedModule} {source : Text → Text}
  {entry : ManifestEntry} {name key body : Text}

theorem loader_mem_registered : .loader name body ∈ registered source modules entry ↔
    ∃ owner ∈ modules, owner.key = name ∧ moduleBody (source owner.path) = body := by
  have hloader : Statement.loader name body ∈ registered source modules entry ↔
      (name, body) ∈ (registered source modules entry).filterMap Statement.loader? := by
    rw [List.mem_filterMap]
    constructor
    · exact fun h => ⟨_, h, rfl⟩
    · rintro ⟨s, hs, hname⟩
      cases s with
      | loader k b =>
        obtain ⟨rfl, rfl⟩ := Prod.mk.inj (Option.some.inj hname)
        exact hs
      | synonym => cases hname
      | run => cases hname
  rw [hloader, filterMap_loader?_registered, List.mem_map]
  simp only [Prod.mk.injEq]

theorem synonym_mem_registered (h : .synonym name key ∈ registered source modules entry) :
    ∃ owner ∈ modules, name ∈ owner.aliases := by
  obtain ⟨owner, howner, halias, _⟩ :=
    mem_filterMap_alias?_registered.mp (List.mem_filterMap.mpr ⟨_, h, rfl⟩)
  exact ⟨owner, howner, halias⟩

/-- A name under which nothing is registered leads to no loader. -/
theorem lookUp_eq_none {ss : List Statement} (halias : ∀ key, .synonym name key ∉ ss)
    (hloader : ∀ body, .loader name body ∉ ss) : (Tables.ofStatements ss).lookUp name = none := by
  have hkeyOf : (Tables.ofStatements ss).keyOf name = name := by
    rw [Tables.keyOf, Tables.ofStatements_eq, OrderedMap.get?_ofList_eq_none, Option.getD_none]
    intro hmem
    obtain ⟨e, he, hname⟩ := List.mem_map.mp hmem
    obtain ⟨s, hs, hsynonym⟩ := List.mem_filterMap.mp he
    cases s with
    | loader => cases hsynonym
    | synonym synonym key =>
      obtain rfl := Option.some.inj hsynonym
      exact halias key (hname ▸ hs)
    | run => cases hsynonym
  rw [Tables.lookUp, hkeyOf, Tables.ofStatements_eq, OrderedMap.get?_ofList_eq_none]
  intro hmem
  obtain ⟨e, he, hname⟩ := List.mem_map.mp hmem
  obtain ⟨s, hs, hload⟩ := List.mem_filterMap.mp he
  cases s with
  | loader key body =>
    obtain rfl := Option.some.inj hload
    exact hloader body (hname ▸ hs)
  | synonym => cases hload
  | run => cases hload

end Registered

section Program

variable {w w' : Workspace} {entryPath name : Text} {limit : Number} {searchRoots : List Text}
  {g : ModuleGraph} {events : List Event}
  (h : ofProgram w entryPath limit searchRoots = (.ok g, events))

include h

/-- The manifest of a program holds a name of the host only as the key of the entry. -/
theorem builtin_mem_manifest (hbuiltin : ModuleName.isBuiltin name = true) {path : Text}
    (he : ⟨name, path⟩ ∈ g.manifest) : name = ModuleKey.ofEntry g.entry ∧ path = g.entry := by
  rcases (mem_manifest_iff h).mp he with ⟨r, hr, heq⟩ | heq
  · obtain ⟨rfl, rfl⟩ := ManifestEntry.mk.inj heq
    obtain ⟨file, _, hmem⟩ := List.mem_flatMap.mp hr
    obtain ⟨_, _, _, _, hfind⟩ := mem_requirements.mp hmem
    rcases ResolvedModule.find_eq_ok hfind with ⟨_, hm⟩ | ⟨hscript, _⟩
    · cases hm
    · rw [hbuiltin] at hscript
      cases hscript
  · exact ManifestEntry.mk.inj heq

/-- Nothing requires the entry, so that its file has no key but its own. -/
theorem key_of_entry {key : Text} (he : ⟨key, g.entry⟩ ∈ g.manifest) :
    key = ModuleKey.ofEntry g.entry := by
  rcases (mem_manifest_iff h).mp he with ⟨r, hr, heq⟩ | heq
  · obtain ⟨_, htarget⟩ := ManifestEntry.mk.inj heq
    exact absurd htarget.symm (mem_dependencies.mp (target_mem_dependencies h hr)).2
  · exact (ManifestEntry.mk.inj heq).1

theorem hostName_registered {modules : List EmbeddedModule} {source : Text → Text}
    {entry : ManifestEntry} (hc : Manifest.Consistent g.manifest)
    (hgroups : EmbeddedModule.Groups g.manifest modules)
    (hbuiltin : ModuleName.isBuiltin name = true) :
    HostName g (source g.entry) (registered source modules entry) name := by
  have hentry : (⟨ModuleKey.ofEntry g.entry, g.entry⟩ : ManifestEntry) ∈ g.manifest :=
    (mem_manifest_iff h).mpr (.inr rfl)
  have halias : ∀ key, .synonym name key ∉ registered source modules entry := by
    intro key hkey
    obtain ⟨owner, howner, hname⟩ := synonym_mem_registered hkey
    obtain ⟨hkey', hpath⟩ := builtin_mem_manifest h hbuiltin
      (hgroups.mem_keys.mp ⟨owner, howner, rfl, List.mem_cons_of_mem _ hname⟩)
    have hfirst : owner.key = ModuleKey.ofEntry g.entry :=
      key_of_entry h (hgroups.mem_keys.mp ⟨owner, howner, hpath, List.mem_cons_self⟩)
    have hnodup : owner.keys.Nodup := hgroups.keys owner howner ▸ Manifest.nodup_distinct _
    exact (List.nodup_cons.mp hnodup).1 (hfirst ▸ hkey' ▸ hname)
  have hloader : ∀ body, .loader name body ∈ registered source modules entry ↔
      name = ModuleKey.ofEntry g.entry ∧ body = moduleBody (source g.entry) := by
    intro body
    rw [loader_mem_registered]
    constructor
    · rintro ⟨owner, howner, rfl, rfl⟩
      obtain ⟨hkey, hpath⟩ := builtin_mem_manifest h hbuiltin
        (hgroups.mem_keys.mp ⟨owner, howner, rfl, List.mem_cons_self⟩)
      exact ⟨hkey, by rw [hpath]⟩
    · rintro ⟨rfl, rfl⟩
      obtain ⟨owner, howner, hpath, _⟩ := hgroups.mem_keys.mpr hentry
      exact ⟨owner, howner,
        key_of_entry h (hgroups.mem_keys.mp ⟨owner, howner, hpath, List.mem_cons_self⟩),
        by rw [hpath]⟩
  refine ⟨halias, hloader, ?_⟩
  split
  · rename_i hname
    obtain ⟨owner, howner, hpath, hkey⟩ := hgroups.mem_keys.mpr hentry
    rw [hname, (lookUp_registered source hc hgroups howner hkey entry).2, hpath]
  · rename_i hname
    exact lookUp_eq_none halias fun body hbody => hname ((hloader body).mp hbody).1

/-- In the bundle of a program a name that the analysis leaves to the host is left to the host,
unless it is the key that the entry has by its file name: then it leads to the entry itself. -/
theorem hostNames_ofManifest {version text : Text}
    (hb : ofManifest w' version g.manifest = .ok text) :
    ∃ parts ss entryText,
      text = Text.joinWith [Text.lineFeed] (header version g.manifest :: prelude :: parts) ∧
      parts.map Statement.ofText? = ss.map some ∧ w'.readText g.entry = .ok entryText ∧
      ∀ file ∈ g.files, ∀ site ∈ file.requires, ∀ name, site.moduleName = some name →
        ResolvedModule.find w (rootsOf w g.entry searchRoots) file.path name =
          .ok (.builtin name) →
        HostName g entryText ss name := by
  obtain ⟨modules, entry, source, _, hc, hgroups, hread, _, rfl⟩ := exists_registered hb
  obtain ⟨owner, howner, hpath, _⟩ := hgroups.mem_keys.mpr
    ((mem_manifest_iff h).mpr (.inr rfl) : (⟨_, g.entry⟩ : ManifestEntry) ∈ g.manifest)
  refine ⟨_, registered source modules entry, source g.entry, rfl, ?_, hpath ▸ hread owner howner,
    ?_⟩
  · rw [List.map_map]
    exact List.map_congr_left fun s _ => Statement.ofText?_text s
  · intro file _ site _ name _ hfind
    rcases ResolvedModule.find_eq_ok hfind with ⟨hbuiltin, _⟩ | ⟨_, _, hm⟩
    · exact hostName_registered h hc hgroups hbuiltin
    · cases hm

end Program

/-- A script named like a module of the host, which it requires. -/
def stringScript : Workspace where
  base := "/p"
  entries :=
    [(["p"], .directory), (["p", "string.lua"], scriptFile "require 'table' require 'string'")]

set_option maxRecDepth 100000 in
/-- Its bundle leaves `table` to the host, but not `string`. -/
theorem hostNames_string :
    ∃ g events text parts ss entryText,
      ofProgram stringScript "string.lua" defaultLimit [] = (.ok g, events) ∧
      ofManifest stringScript version g.manifest = .ok text ∧
      text = Text.joinWith [Text.lineFeed] (header version g.manifest :: prelude :: parts) ∧
      parts.map Statement.ofText? = ss.map some ∧
      (Tables.ofStatements ss).lookUp "table" = none ∧
      (Tables.ofStatements ss).lookUp "string" = some (moduleBody entryText) := by
  have hrun : (ofProgram stringScript "string.lua" defaultLimit []).1.toOption.map
      (fun g => (g.entry, g.manifest, g.files)) =
      some (("/p/string.lua" : Text), ([⟨"string", "/p/string.lua"⟩] : Manifest),
        [⟨"/p/string.lua", "require 'table' require 'string'",
          RequireSite.scan "require 'table' require 'string'"⟩]) := by decide +kernel
  obtain ⟨g, events, h, hg⟩ := exists_ok hrun
  obtain ⟨hentry, hrest⟩ := Prod.mk.inj hg
  obtain ⟨hmanifest, hfiles⟩ := Prod.mk.inj hrest
  have hbundled : (ofManifest stringScript version g.manifest).toOption.isSome = true := by
    rw [hmanifest]
    decide +kernel
  cases hb : ofManifest stringScript version g.manifest with
  | error error =>
    rw [hb] at hbundled
    cases hbundled
  | ok text =>
    obtain ⟨parts, ss, entryText, htext, hparts, _, hnames⟩ := hostNames_ofManifest h hb
    have hsites : (RequireSite.scan "require 'table' require 'string'").map (·.moduleName) =
        [some (Text.ofString "table"), some "string"] := by decide +kernel
    have hname : ∀ name, some name ∈ [some ("table" : Text), some "string"] →
        ModuleName.isBuiltin name = true → HostName g entryText ss name := by
      intro name hmem hbuiltin
      rw [← hsites] at hmem
      obtain ⟨site, hsite, hsame⟩ := List.mem_map.mp hmem
      refine hnames _ (hfiles ▸ List.mem_singleton_self _) site hsite name hsame ?_
      rw [ResolvedModule.find, if_pos hbuiltin]
    refine ⟨g, events, text, parts, ss, entryText, h, hb, htext, hparts, ?_, ?_⟩
    · rw [(hname "table" (by simp) (by decide)).lookUp, hentry, if_neg (by decide)]
    · rw [(hname "string" (by simp) (by decide)).lookUp, hentry, if_pos (by decide)]

end ModuleGraph

end LuaBundle
