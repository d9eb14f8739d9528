import LuaBundle.Proofs.Bundle.Linking
import LuaBundle.Proofs.Bundle.Output
import LuaBundle.Proofs.Text.Utf8
import LuaBundle.Proofs.Workspace.Reading

/-! What the file of a bundle holds of the files of its manifest, byte by byte. Each stands after
the line that opens its loader, without a first line that names an interpreter. Files are read as
UTF-8, so that what is not UTF-8 in them is repaired. -/

namespace LuaBundle.Bundle

open Text LuaBundle.Task Workspace

variable {version output target key : Text} {manifest : Manifest} {s after : Session}

/-- The bytes of a script without a first line that names an interpreter. -/
def withoutInterpreter (source : Bytes) : Bytes :=
  if source.head? = some 0x23 then source.dropWhile (· != 0x0A) else source

theorem moduleBody_decode (source : Bytes) :
    moduleBody (Utf8.decode source) = Utf8.decode (withoutInterpreter source) := by
  have hhead : (Utf8.decode source).head? = some hash ↔ source.head? = some 0x23 :=
    Utf8.head?_decode (b := 0x23) (by decide)
  rw [moduleBody, withoutInterpreter]
  by_cases h : source.head? = some 0x23
  · rw [if_pos h, if_pos (hhead.mpr h)]
    exact (Utf8.decode_dropWhile (b := 0x0A) (by decide) source).symm
  · rw [if_neg h, if_neg (fun h' => h (hhead.mp h'))]

/-- The line that opens the loader of a module. -/
def loaderLine (key : Text) : Text :=
  element moduleTable (Quoted.encode key) ++ " = function(...) local require = " ++ requireFunction

theorem text_loader (key body : Text) : (Statement.loader key body).text =
    loaderLine key ++ lineFeed :: body ++ lineFeed :: "end" ++ [lineFeed] := by
  have hend : ("\nend\n" : Text) = lineFeed :: "end" ++ [lineFeed] := by decide
  rw [Statement.text, hend, loaderLine]
  simp only [List.append_assoc, List.cons_append]

/-- A line feed, as a byte. -/
abbrev newline : UInt8 := 0x0A

/-- A file holds the loader of a module with the given bytes in it. -/
def Carries (out : Bytes) (key : Text) (body : Bytes) : Prop :=
  ∃ before after, out = before ++ newline :: Utf8.encode (loaderLine key) ++ newline :: body ++
    newline :: Utf8.encode "end" ++ newline :: after

theorem joinWith_of_mem {first t : Text} {ts : List Text} (h : t ∈ ts) :
    ∃ before after, joinWith [lineFeed] (first :: ts) = before ++ lineFeed :: t ++ after := by
  induction ts generalizing first with
  | nil => cases h
  | cons u ts ih =>
    rw [joinWith, List.intercalate_cons_of_ne_nil (by simp)]
    rcases List.mem_cons.mp h with rfl | hrest
    · cases ts with
      | nil => exact ⟨first, [], by simp⟩
      | cons v ts => exact ⟨first, [lineFeed] ++ joinWith [lineFeed] (v :: ts), by
          rw [List.intercalate_cons_of_ne_nil (by simp)]
          simp [joinWith]⟩
    · obtain ⟨before, after, hjoined⟩ := @ih u hrest
      exact ⟨first ++ lineFeed :: before, after, by simp [← hjoined, joinWith]⟩

theorem carries_of_mem {ss : List Statement} {body : Text} (h : .loader key body ∈ ss) :
    Carries (Utf8.encode (render version manifest ss)) key (Utf8.encode body) := by
  have hmem : (Statement.loader key body).text ∈ prelude :: ss.map Statement.text :=
    List.mem_cons_of_mem _ (List.mem_map_of_mem h)
  obtain ⟨before, after, hjoined⟩ := @joinWith_of_mem (header version manifest) _ _ hmem
  have hsplit : ∀ t u, Utf8.encode (t ++ lineFeed :: u) =
      Utf8.encode t ++ newline :: Utf8.encode u :=
    Utf8.encode_append_byte (b := newline) (by decide)
  refine ⟨Utf8.encode before, Utf8.encode after, ?_⟩
  rw [render, hjoined, text_loader]
  simp only [List.append_assoc, List.cons_append, List.nil_append, hsplit]

/-- How a bundle that has been stored was made. -/
theorem write_eq_ok (h : (write version manifest output).runFrom s = (.ok target, after)) :
    ∃ text w, ofManifest s.workspace version manifest = .ok text ∧
      target = s.workspace.absolute output ∧
      s.workspace.makeDirectories (Path.parent target) = (.ok (), w) ∧
      w.writeText target text = .ok after.workspace := by
  obtain ⟨_, _, ⟨⟩, h⟩ := runFrom_bind_eq_ok h
  obtain ⟨text, _, hmade, h⟩ := runFrom_bind_eq_ok h
  obtain ⟨hmade, rfl⟩ := ofExcept_eq_ok hmade
  obtain ⟨_, _, hprepare, h⟩ := runFrom_bind_eq_ok h
  obtain ⟨w, hdirectories, rfl⟩ := tryChange_eq_ok hprepare
  obtain ⟨_, _, hstore, h⟩ := runFrom_bind_eq_ok h
  obtain ⟨w', hwritten, rfl⟩ := change_eq_ok hstore
  obtain ⟨_, _, ⟨⟩, ⟨⟩⟩ := runFrom_bind_eq_ok h
  exact ⟨text, w, hmade, rfl, hdirectories, hwritten⟩

/-- A bundle that can be made can be made from more files than it needs. -/
theorem statements_extends {w w' : Workspace} {ss : List Statement} (hext : Extends w w')
    (h : statements w manifest = .ok ss) : statements w' manifest = .ok ss := by
  cases hentry : manifest.getLast? with
  | none =>
    rw [statements, Manifest.entryPoint?, hentry] at h
    cases h
  | some entry =>
    cases hmodules : EmbeddedModule.ofManifest manifest with
    | error error => cases h.symm.trans (statements_eq_error hentry hmodules)
    | ok modules =>
      obtain ⟨source, hread⟩ := exists_source hentry hmodules h
      rw [← h, statements_eq_ok hentry hmodules hread]
      exact statements_eq_ok hentry hmodules fun m hm => hext.readText (hread m hm)

theorem ofManifest_extends {w w' : Workspace} {text : Text} (hext : Extends w w')
    (h : ofManifest w version manifest = .ok text) : ofManifest w' version manifest = .ok text := by
  rw [ofManifest] at h ⊢
  cases hstatements : statements w manifest with
  | error error =>
    rw [hstatements] at h
    cases h
  | ok ss => rwa [statements_extends hext hstatements, ← hstatements]

/-- What the file of a bundle holds of a file: its bytes, each part of them that is not UTF-8 as a
mark, in the loader of its first key. -/
structure Embeds (manifest : Manifest) (out : Bytes) (path : Text) (source body : Bytes) :
    Prop where
  repaired : Utf8.Repaired (withoutInterpreter source) body
  exact_iff : body = withoutInterpreter source ↔ Utf8.WellFormed (withoutInterpreter source)
  carries : Carries out (manifest.firstKey path) body

/-- A bundle that has been stored holds every file of its manifest. -/
theorem embeds_write (h : (write version manifest output).runFrom s = (.ok target, after)) :
    target = s.workspace.absolute output ∧ ∃ out, after.workspace.HasBytes target out ∧
      ∀ path ∈ manifest.files, ∃ source body, s.workspace.readBytes path = .ok source ∧
        Embeds manifest out path source body := by
  obtain ⟨text, w, hmade, rfl, _, hwritten⟩ := write_eq_ok h
  obtain ⟨modules, entry, source, _, _, hgroups, hread, _, rfl⟩ := exists_registered hmade
  refine ⟨rfl, _, hasBytes_writeBytes hwritten, fun path hpath => ?_⟩
  obtain ⟨key, hkey⟩ := Manifest.mem_files.mp hpath
  obtain ⟨owner, howner, rfl, _⟩ := hgroups.mem_keys.mpr hkey
  have htext := hread owner howner
  cases hbytes : s.workspace.readBytes owner.path with
  | error error =>
    rw [readText, hbytes] at htext
    cases htext
  | ok bytes =>
    rw [readText, hbytes] at htext
    have hsource : Utf8.decode bytes = source owner.path := Except.ok.inj htext
    have hloader : .loader owner.key (moduleBody (source owner.path)) ∈
        registered source modules entry :=
      List.mem_append_left _ (List.mem_flatMap.mpr ⟨owner, howner, List.mem_cons_self⟩)
    rw [← hsource, moduleBody_decode, key_eq_firstKey hgroups howner] at hloader
    exact ⟨bytes, _, rfl, Utf8.repaired_iff.mpr rfl, Utf8.encode_decode_eq_iff,
      carries_of_mem hloader⟩

/-- A script in Latin-1, with a letter that is no ASCII. -/
def latinScript : Bytes := Utf8.encode "return '" ++ 0xE9 :: Utf8.encode "'"

/-- The script with a mark for the letter. -/
def markedScript : Bytes := Utf8.encode "return '" ++ Utf8.mark ++ Utf8.encode "'"

def latinProject : Session :=
  .start ⟨"/p", [(["p"], .directory), (["p", "main.lua"], .file latinScript newFileMode)]⟩

def latinManifest : Manifest := [⟨"main", "/p/main.lua"⟩]

theorem exists_runFrom_latin : ∃ after,
    (write Bundle.version latinManifest "out.lua").runFrom latinProject =
      (.ok "/p/out.lua", after) ∧ after.workspace.isReadable "/p/out.lua" = true := by
  have hresult : ((write Bundle.version latinManifest "out.lua").runFrom latinProject).1 =
      .ok "/p/out.lua" := by decide +kernel
  exact ⟨_, Prod.ext hresult rfl, by decide +kernel⟩

theorem readBytes_latin : latinProject.workspace.readBytes "/p/main.lua" = .ok latinScript := by
  decide +kernel

/-- The bundle of the script has the mark in place of the letter. -/
theorem embeds_latin : ∃ after out,
    (write Bundle.version latinManifest "out.lua").runFrom latinProject =
      (.ok "/p/out.lua", after) ∧
    after.workspace.readBytes "/p/out.lua" = .ok out ∧
    Embeds latinManifest out "/p/main.lua" latinScript markedScript := by
  obtain ⟨after, hrun, hreadable⟩ := exists_runFrom_latin
  obtain ⟨_, out, hout, hall⟩ := embeds_write hrun
  obtain ⟨source, body, hread, hembeds⟩ := hall "/p/main.lua" (by decide)
  obtain rfl := Except.ok.inj (hread.symm.trans readBytes_latin)
  have hbody : Utf8.encode (Utf8.decode (withoutInterpreter latinScript)) = markedScript := by
    decide +kernel
  obtain rfl := hembeds.repaired.encode_decode.symm.trans hbody
  exact ⟨after, out, hrun, hout.readBytes hreadable, hembeds⟩

/-- The bundle of the script does not have its bytes. -/
theorem not_carries_latin : ∃ after out,
    (write Bundle.version latinManifest "out.lua").runFrom latinProject =
      (.ok "/p/out.lua", after) ∧
    after.workspace.readBytes "/p/out.lua" = .ok out ∧
    latinProject.workspace.readBytes "/p/main.lua" = .ok latinScript ∧
    ¬Carries out "main" (withoutInterpreter latinScript) := by
  obtain ⟨after, hrun, _⟩ := exists_runFrom_latin
  have hfree : ((((write Bundle.version latinManifest "out.lua").runFrom
      latinProject).2.workspace.readBytes "/p/out.lua").toOption.any
        (!·.contains 0xE9)) = true := by
    decide +kernel
  rw [hrun] at hfree
  cases hout : after.workspace.readBytes "/p/out.lua" with
  | error error =>
    rw [hout] at hfree
    cases hfree
  | ok out =>
    refine ⟨after, out, hrun, hout, readBytes_latin, ?_⟩
    rintro ⟨before, rest, rfl⟩
    have hmem : (0xE9 : UInt8) ∈ withoutInterpreter latinScript := by decide
    simp [hout, Except.toOption, hmem] at hfree

end LuaBundle.Bundle
