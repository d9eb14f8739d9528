import LuaBundle.Proofs.Bundle.Linking
import Mathlib.Data.List.Nodup

/-! What is made of a manifest, whoever wrote it. A bundle is refused for the first key that stands
for a second file, else for the first file that cannot be read. In a bundle that is made, each file
has one loader, each key of the manifest is registered once and leads to its own file, and the last
statement runs the file of the last entry. -/

namespace LuaBundle

namespace Manifest

/-- What comes first in a list comes first among its values. -/
theorem find?_distinct (p : Text → Bool) (xs : List Text) : (distinct xs).find? p = xs.find? p := by
  induction xs with
  | nil => rfl
  | cons x rest ih =>
    rw [distinct, List.find?_cons, List.find?_cons]
    cases hx : p x with
    | true => rfl
    | false =>
      have hother : (fun y => decide (y != x ∧ p y = true)) = p := by
        funext y
        by_cases hy : y = x <;> simp [hy, hx]
      rw [← ih, List.find?_filter, hother]

end Manifest

/-- A list of results fails with the first error among them. -/
theorem mapM_eq_error {α β ε : Type} {f : α → Except ε β} {before after : List α} {x : α} {e : ε}
    (hbefore : ∀ y ∈ before, ∃ b, f y = .ok b) (hx : f x = .error e) :
    (before ++ x :: after).mapM f = .error e := by
  induction before with
  | nil =>
    rw [List.nil_append, List.mapM_cons, hx]
    rfl
  | cons y before ih =>
    obtain ⟨⟨b, hb⟩, hrest⟩ := List.forall_mem_cons.mp hbefore
    rw [List.cons_append, List.mapM_cons, hb, ih hrest]
    rfl

namespace EmbeddedModule

open Manifest

variable {m : Manifest} {key key' first first' second second' : Text}

theorem FirstClash.le_length {before before' after after' : Manifest} {e e' : ManifestEntry}
    (h : before ++ e :: after = before' ++ e' :: after') (hclash : ¬Consistent (before ++ [e]))
    (hbefore' : Consistent before') : before'.length ≤ before.length := by
  by_contra hlt
  have hwhole : before ++ [e] <+: before' ++ e' :: after' := ⟨after, by rw [← h]; simp⟩
  have hstart : before ++ [e] <+: before' :=
    List.prefix_of_prefix_length_le hwhole (List.prefix_append _ _) (by simp; omega)
  exact hclash fun a ha b hb => hbefore' a (hstart.subset ha) b (hstart.subset hb)

/-- There is one first clash. -/
theorem FirstClash.unique (h : FirstClash m key first second)
    (h' : FirstClash m key' first' second') :
    key = key' ∧ first = first' ∧ second = second' := by
  obtain ⟨before, after, rfl, hbefore, hfirst, hne⟩ := h
  obtain ⟨before', after', hsplit, hbefore', hfirst', hne'⟩ := h'
  have clash : ∀ {b : Manifest} {k f s : Text}, (⟨k, f⟩ : ManifestEntry) ∈ b → f ≠ s →
      ¬Consistent (b ++ [⟨k, s⟩]) := fun {b k f s} hmem hne hc =>
    hne (hc ⟨k, f⟩ (List.mem_append_left _ hmem) ⟨k, s⟩ (by simp) rfl)
  have hlength : before.length = before'.length :=
    le_antisymm (FirstClash.le_length hsplit.symm (clash hfirst' hne') hbefore)
      (FirstClash.le_length hsplit (clash hfirst hne) hbefore')
  obtain ⟨rfl, hrest⟩ := List.append_inj hsplit hlength
  obtain ⟨he, _⟩ := List.cons.inj hrest
  obtain ⟨rfl, rfl⟩ := ManifestEntry.mk.inj he
  exact ⟨rfl, hbefore ⟨key, first⟩ hfirst ⟨key, first'⟩ hfirst' rfl, rfl⟩

end EmbeddedModule

namespace Bundle

open EmbeddedModule (Groups FirstClash)

/-- The first entry of a manifest whose file cannot be read, with the reason. -/
def FirstUnreadable (w : Workspace) (m : Manifest) (path reason : Text) : Prop :=
  ∃ before after e error, m = before ++ e :: after ∧
    (∀ e' ∈ before, ∃ t, w.readText e'.path = .ok t) ∧
    w.readText e.path = .error error ∧ path = e.path ∧ reason = error.message

/-- The name that a statement registers. -/
def Statement.name? : Statement → Option Text
  | loader key _ => some key
  | synonym name _ => some name
  | run _ => none

/-- The statements `ss` register the files and keys of a manifest, and nothing else. -/
structure Registers (w : Workspace) (m : Manifest) (ss : List Statement) : Prop where
  /-- Each file has one loader, in the order in which the files occur first. -/
  loaders : ∃ source : Text → Text, (∀ path ∈ m.files, w.readText path = .ok (source path)) ∧
    ss.filterMap Statement.loader? =
      m.files.map fun path => (m.firstKey path, moduleBody (source path))
  /-- No name is registered twice. -/
  nodup : (ss.filterMap Statement.name?).Nodup
  names : ∀ key, key ∈ ss.filterMap Statement.name? ↔ ∃ path, ⟨key, path⟩ ∈ m
  /-- A key leads to the loader of its own file, directly or as an alias. -/
  leads : ∀ e ∈ m, (Tables.ofStatements ss).keyOf e.key = m.firstKey e.path ∧
    ∃ source, w.readText e.path = .ok source ∧
      (Tables.ofStatements ss).lookUp e.key = some (moduleBody source)
  /-- The last statement runs the file of the last entry. -/
  entry : ∀ e, m.getLast? = some e → ss.getLast? = some (.run (m.firstKey e.path))

section Registered

variable {w : Workspace} {m : Manifest} {modules : List EmbeddedModule} {source : Text → Text}
  {entry : ManifestEntry}

theorem name?_runEntry (modules : List EmbeddedModule) (entry : ManifestEntry) :
    (runEntry modules entry).name? = none := by
  unfold runEntry
  split <;> rfl

theorem filterMap_name?_registered (modules : List EmbeddedModule) (entry : ManifestEntry) :
    (registered source modules entry).filterMap Statement.name? =
      modules.flatMap EmbeddedModule.keys := by
  rw [registered, List.filterMap_append, List.filterMap_flatMap, List.filterMap_cons_none
    (name?_runEntry modules entry), List.filterMap_nil, List.append_nil]
  refine List.flatMap_congr fun owner _ => ?_
  rw [register, List.filterMap_cons, List.filterMap_map]
  have hnames : (fun name => (Statement.synonym name owner.key).name?) = some := rfl
  simp only [Function.comp_def, hnames, List.filterMap_some]
  rfl

theorem nodup_flatMap_keys (hc : m.Consistent) (hg : Groups m modules) :
    (modules.flatMap EmbeddedModule.keys).Nodup := by
  have hpaths : (modules.map (·.path)).Nodup := hg.paths ▸ Manifest.nodup_distinct _
  have hnodup : modules.Nodup := List.Nodup.of_map _ hpaths
  refine List.nodup_flatMap.mpr ⟨fun owner howner => ?_, ?_⟩
  · rw [hg.keys owner howner]
    exact Manifest.nodup_distinct _
  · refine hnodup.pairwise_of_forall_ne fun owner howner other hother hne key hkey hkey' => ?_
    exact hne (eq_of_mem_keys hc hg howner hother hkey hkey')

theorem registers_registered (hc : m.Consistent) (hg : Groups m modules)
    (hentry : m.getLast? = some entry)
    (hread : ∀ path ∈ m.files, w.readText path = .ok (source path)) :
    Registers w m (registered source modules entry) where
  loaders := ⟨source, hread, loaders_eq hg entry⟩
  nodup := by
    rw [filterMap_name?_registered]
    exact nodup_flatMap_keys hc hg
  names key := by
    simp only [filterMap_name?_registered, List.mem_flatMap, ← hg.mem_keys]
    constructor
    · rintro ⟨owner, howner, hkey⟩
      exact ⟨owner.path, owner, howner, rfl, hkey⟩
    · rintro ⟨_, owner, howner, rfl, hkey⟩
      exact ⟨owner, howner, hkey⟩
  leads e he := by
    obtain ⟨owner, howner, hpath, hkey⟩ := hg.mem_keys.mpr (show ⟨e.key, e.path⟩ ∈ m from he)
    have hlook := lookUp_registered source hc hg howner hkey entry
    rw [key_eq_firstKey hg howner, hpath] at hlook
    exact ⟨hlook.1, source e.path, hread _ (Manifest.mem_files.mpr ⟨e.key, he⟩), hlook.2⟩
  entry e he := by
    obtain rfl := Option.some.inj (hentry.symm.trans he)
    rw [registered, List.getLast?_concat, runEntry_eq hg (List.mem_of_getLast? hentry)]

end Registered

section Unreadable

variable {w : Workspace} {m : Manifest} {modules : List EmbeddedModule} {entry : ManifestEntry}
  {path reason : Text}

/-- Whether a file cannot be read. -/
def isUnread (w : Workspace) (path : Text) : Bool := !(w.readText path).isOk

theorem isUnread_eq_false_iff : isUnread w path = false ↔ ∃ t, w.readText path = .ok t := by
  unfold isUnread
  cases w.readText path <;> simp [Except.isOk, Except.toBool]

theorem isUnread_iff : isUnread w path = true ↔ ∃ error, w.readText path = .error error := by
  unfold isUnread
  cases w.readText path <;> simp [Except.isOk, Except.toBool]

theorem firstUnreadable_iff : FirstUnreadable w m path reason ↔
    ∃ e error, m.find? (fun e => isUnread w e.path) = some e ∧ w.readText e.path = .error error ∧
      path = e.path ∧ reason = error.message := by
  have hbefore : ∀ before : Manifest, (∀ e' ∈ before, (!isUnread w e'.path) = true) ↔
      ∀ e' ∈ before, ∃ t, w.readText e'.path = .ok t := by
    simp [isUnread_eq_false_iff]
  simp only [FirstUnreadable, List.find?_eq_some_iff_append, hbefore]
  constructor
  · rintro ⟨before, after, e, error, rfl, hread, herror, hpath, hreason⟩
    exact ⟨e, error, ⟨isUnread_iff.mpr ⟨error, herror⟩, before, after, rfl, hread⟩, herror, hpath,
      hreason⟩
  · rintro ⟨e, error, ⟨_, before, after, rfl, hread⟩, herror, hpath, hreason⟩
    exact ⟨before, after, e, error, rfl, hread, herror, hpath, hreason⟩

theorem FirstUnreadable.unique {path' reason' : Text} (h : FirstUnreadable w m path reason)
    (h' : FirstUnreadable w m path' reason') : path = path' ∧ reason = reason' := by
  obtain ⟨e, error, hfind, herror, rfl, rfl⟩ := firstUnreadable_iff.mp h
  obtain ⟨e', error', hfind', herror', rfl, rfl⟩ := firstUnreadable_iff.mp h'
  obtain rfl := Option.some.inj (hfind.symm.trans hfind')
  rw [Except.error.inj (herror.symm.trans herror')]
  exact ⟨rfl, rfl⟩

/-- There is a first file that cannot be read where there is any. -/
theorem exists_firstUnreadable_iff : (∃ path reason, FirstUnreadable w m path reason) ↔
    ∃ e ∈ m, ∃ error, w.readText e.path = .error error := by
  simp only [firstUnreadable_iff]
  constructor
  · rintro ⟨_, _, e, error, hfind, herror, _⟩
    exact ⟨e, List.mem_of_find?_eq_some hfind, error, herror⟩
  · rintro ⟨e, he, error, herror⟩
    cases hfind : m.find? fun e => isUnread w e.path with
    | none => exact absurd (isUnread_iff.mpr ⟨error, herror⟩) (List.find?_eq_none.mp hfind e he)
    | some first =>
      have hunread : isUnread w first.path = true := by simpa using List.find?_some hfind
      obtain ⟨error', herror'⟩ := isUnread_iff.mp hunread
      exact ⟨_, _, first, error', rfl, herror', rfl, rfl⟩

/-- The files are read in the order in which they occur first, so that the first one that cannot be
read is the one that is reported. -/
theorem statements_of_unreadable (hentry : m.getLast? = some entry)
    (hmodules : EmbeddedModule.ofManifest m = .ok modules) (hg : Groups m modules)
    (h : FirstUnreadable w m path reason) :
    statements w m = .error (.sourceUnreadable path reason) := by
  obtain ⟨e, error, hfind, herror, rfl, rfl⟩ := firstUnreadable_iff.mp h
  have hfiles : (modules.find? fun owner => isUnread w owner.path).map (·.path) = some e.path := by
    have hpaths : (modules.map (·.path)).find? (isUnread w) =
        (m.map (·.path)).find? (isUnread w) := by
      rw [hg.paths, Manifest.files, Manifest.find?_distinct]
    simp only [List.find?_map, Function.comp_def, hfind] at hpaths
    exact hpaths
  obtain ⟨owner, howner, hpath⟩ := Option.map_eq_some_iff.mp hfiles
  obtain ⟨_, before, after, rfl, hbefore⟩ := List.find?_eq_some_iff_append.mp howner
  have hfail : (before ++ owner :: after).mapM (fun m => return register m (← readSource w m)) =
      (.error (.sourceUnreadable e.path error.message) : Except BundleError _) := by
    refine mapM_eq_error (fun other hother => ?_) ?_
    · obtain ⟨t, ht⟩ := isUnread_eq_false_iff.mp (by simpa using hbefore other hother)
      exact ⟨register other t, by rw [readSource, ht]; rfl⟩
    · rw [readSource, hpath, herror]
      rfl
  simp only [statements, Manifest.entryPoint?, hentry, hmodules]
  change ((before ++ owner :: after).mapM (fun m => return register m (← readSource w m)) >>=
    fun registered => return registered.flatten ++ [runEntry _ entry] : Except _ _) = _
  rw [hfail]
  rfl

end Unreadable

section Decides

variable {w : Workspace} {m : Manifest} {version : Text}

/-- What is made of a manifest: the first of these that applies. -/
inductive Verdict (w : Workspace) (version : Text) (m : Manifest) :
    Except BundleError Text → Prop
  | empty (hm : m = []) : Verdict w version m (.error .emptyManifest)
  | clash {key first second : Text} (h : FirstClash m key first second) :
    Verdict w version m (.error (.duplicateKey key first second))
  | unreadable {path reason : Text} (hc : m.Consistent) (h : FirstUnreadable w m path reason) :
    Verdict w version m (.error (.sourceUnreadable path reason))
  | made {ss : List Statement} (hm : m ≠ []) (hc : m.Consistent)
    (hread : ∀ e ∈ m, ∃ t, w.readText e.path = .ok t) (h : Registers w m ss) :
    Verdict w version m (.ok (render version m ss))

theorem not_consistent_iff :
    ¬m.Consistent ↔ ∃ e ∈ m, ∃ e' ∈ m, e.key = e'.key ∧ e.path ≠ e'.path := by
  simp only [Manifest.Consistent, not_forall, exists_prop]

theorem exists_firstClash_iff :
    (∃ key first second, FirstClash m key first second) ↔ ¬m.Consistent := by
  constructor
  · rintro ⟨key, first, second, h⟩
    exact h.not_consistent
  · intro hc
    rcases EmbeddedModule.ofManifest_cases m with ⟨_, _, hconsistent, _⟩ | ⟨_, _, _, _, hclash⟩
    · exact absurd hconsistent hc
    · exact ⟨_, _, _, hclash⟩

/-- Files that can all be read have their contents. -/
theorem exists_contents (hread : ∀ e ∈ m, ∃ t, w.readText e.path = .ok t) :
    ∃ source : Text → Text, ∀ path ∈ m.files, w.readText path = .ok (source path) := by
  refine ⟨fun path => (w.readText path).toOption.getD [], fun path hpath => ?_⟩
  obtain ⟨key, he⟩ := Manifest.mem_files.mp hpath
  obtain ⟨t, ht : w.readText path = .ok t⟩ := hread _ he
  simp [ht, Except.toOption]

theorem verdict_of_groups {modules : List EmbeddedModule} {entry : ManifestEntry}
    (hentry : m.getLast? = some entry) (hmodules : EmbeddedModule.ofManifest m = .ok modules)
    (hc : m.Consistent) (hg : Groups m modules) :
    Verdict w version m ((statements w m).map (render version m)) := by
  by_cases hunread : ∃ path reason, FirstUnreadable w m path reason
  · obtain ⟨path, reason, h⟩ := hunread
    rw [statements_of_unreadable hentry hmodules hg h]
    exact .unreadable hc h
  · have hread : ∀ e ∈ m, ∃ t, w.readText e.path = .ok t := by
      intro e he
      cases ht : w.readText e.path with
      | ok t => exact ⟨t, rfl⟩
      | error error => exact absurd (exists_firstUnreadable_iff.mpr ⟨e, he, error, ht⟩) hunread
    obtain ⟨source, hsource⟩ := exists_contents hread
    have hmodule : ∀ owner ∈ modules, w.readText owner.path = .ok (source owner.path) :=
      fun owner howner => hsource _ (hg.paths ▸ List.mem_map_of_mem howner)
    rw [statements_eq_ok hentry hmodules hmodule]
    exact .made (List.ne_nil_of_mem (List.mem_of_getLast? hentry)) hc hread
      (registers_registered hc hg hentry hsource)

theorem verdict_ofManifest (w : Workspace) (version : Text) (m : Manifest) :
    Verdict w version m (ofManifest w version m) := by
  rw [ofManifest]
  cases hentry : m.getLast? with
  | none =>
    obtain rfl := List.getLast?_eq_none_iff.mp hentry
    exact .empty rfl
  | some entry =>
    rcases EmbeddedModule.ofManifest_cases m with
      ⟨modules, hmodules, hc, hg⟩ | ⟨key, first, second, herror, hclash⟩
    · exact verdict_of_groups hentry hmodules hc hg
    · rw [statements_eq_error hentry herror]
      exact .clash hclash

theorem FirstUnreadable.not_read {path reason : Text} (h : FirstUnreadable w m path reason) :
    ¬∀ e ∈ m, ∃ t, w.readText e.path = .ok t := by
  obtain ⟨e, he, error, herror⟩ := exists_firstUnreadable_iff.mp ⟨_, _, h⟩
  intro hread
  obtain ⟨t, ht⟩ := hread e he
  cases herror.symm.trans ht

section Verdict

variable {r : Except BundleError Text}

theorem Verdict.eq_empty_iff (h : Verdict w version m r) : r = .error .emptyManifest ↔ m = [] := by
  constructor
  · rintro rfl
    cases h
    assumption
  · rintro rfl
    cases h with
    | empty => rfl
    | clash hclash => exact absurd (by simp [Manifest.Consistent]) hclash.not_consistent
    | unreadable _ hunread => exact absurd (by simp) hunread.not_read
    | made hm => exact absurd rfl hm

theorem Verdict.eq_duplicate_iff {key first second : Text} (h : Verdict w version m r) :
    r = .error (.duplicateKey key first second) ↔ FirstClash m key first second := by
  constructor
  · rintro rfl
    cases h
    assumption
  · intro hclash
    have hnot := hclash.not_consistent
    cases h with
    | empty hm => exact absurd (by simp [hm, Manifest.Consistent]) hnot
    | clash h =>
      obtain ⟨rfl, rfl, rfl⟩ := h.unique hclash
      rfl
    | unreadable hc => exact absurd hc hnot
    | made _ hc => exact absurd hc hnot

theorem Verdict.eq_unreadable_iff {path reason : Text} (h : Verdict w version m r) :
    r = .error (.sourceUnreadable path reason) ↔
      m.Consistent ∧ FirstUnreadable w m path reason := by
  constructor
  · rintro rfl
    cases h
    exact ⟨‹_›, ‹_›⟩
  · rintro ⟨hc, hunread⟩
    have hnot := hunread.not_read
    cases h with
    | empty hm => exact absurd (by simp [hm]) hnot
    | clash h => exact absurd hc h.not_consistent
    | unreadable _ h =>
      obtain ⟨rfl, rfl⟩ := h.unique hunread
      rfl
    | made _ _ hread => exact absurd hread hnot

theorem Verdict.exists_ok_iff (h : Verdict w version m r) : (∃ text, r = .ok text) ↔
    m ≠ [] ∧ m.Consistent ∧ ∀ e ∈ m, ∃ t, w.readText e.path = .ok t := by
  constructor
  · rintro ⟨text, rfl⟩
    cases h
    exact ⟨‹_›, ‹_›, ‹_›⟩
  · rintro ⟨hne, hc, hread⟩
    cases h with
    | empty hm => exact absurd hm hne
    | clash h => exact absurd hc h.not_consistent
    | unreadable _ h => exact absurd hread h.not_read
    | made => exact ⟨_, rfl⟩

/-- The statements of a bundle are read back from its text. -/
theorem Verdict.registers {text : Text} (h : Verdict w version m (.ok text)) : ∃ parts ss,
    text = Text.joinWith [Text.lineFeed] (header version m :: prelude :: parts) ∧
      parts.map Statement.ofText? = ss.map some ∧ Registers w m ss := by
  cases h with
  | @made ss _ _ _ hregisters =>
    refine ⟨ss.map Statement.text, ss, rfl, ?_, hregisters⟩
    rw [List.map_map]
    exact List.map_congr_left fun s _ => Statement.ofText?_text s

end Verdict

/-- What is made of a manifest is decided by its keys, then by its files. -/
structure Decides (w : Workspace) (version : Text) (m : Manifest) : Prop where
  empty : ofManifest w version m = .error .emptyManifest ↔ m = []
  /-- The first key that stands for a second file is refused, -/
  duplicate : ∀ key first second, ofManifest w version m =
    .error (.duplicateKey key first second) ↔ FirstClash m key first second
  /-- and there is one where any key stands for two files. -/
  clashes : (∃ key first second, FirstClash m key first second) ↔
    ∃ e ∈ m, ∃ e' ∈ m, e.key = e'.key ∧ e.path ≠ e'.path
  /-- Where no key does, the first file that cannot be read is refused, -/
  unreadable : ∀ path reason, ofManifest w version m = .error (.sourceUnreadable path reason) ↔
    m.Consistent ∧ FirstUnreadable w m path reason
  /-- and there is one where any file cannot be read. -/
  unread : (∃ path reason, FirstUnreadable w m path reason) ↔
    ∃ e ∈ m, ∃ error, w.readText e.path = .error error
  /-- Every other manifest is made into a bundle. -/
  made : (∃ text, ofManifest w version m = .ok text) ↔
    m ≠ [] ∧ m.Consistent ∧ ∀ e ∈ m, ∃ t, w.readText e.path = .ok t
  registers : ∀ text, ofManifest w version m = .ok text → ∃ parts ss,
    text = Text.joinWith [Text.lineFeed] (header version m :: prelude :: parts) ∧
      parts.map Statement.ofText? = ss.map some ∧ Registers w m ss

/-- A manifest is bundled unless its keys or its files stand in the way, and then the first of them
is named. -/
theorem decides_ofManifest (w : Workspace) (version : Text) (m : Manifest) :
    Decides w version m := by
  have hverdict := verdict_ofManifest w version m
  exact
    { empty := hverdict.eq_empty_iff
      duplicate := fun _ _ _ => hverdict.eq_duplicate_iff
      clashes := exists_firstClash_iff.trans not_consistent_iff
      unreadable := fun _ _ => hverdict.eq_unreadable_iff
      unread := exists_firstUnreadable_iff
      made := hverdict.exists_ok_iff
      registers := fun _ h => (h ▸ hverdict).registers }

end Decides

end Bundle

end LuaBundle
