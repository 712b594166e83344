import JackCompiler.Proofs.Files.Sources
/-!
# Where the code of the sources goes

The codes of two sources go to different locations, none of which is that of a source. The
directories on the way to the code of one source are not where the code of a later one goes, unless
they are also on the way there.
-/

namespace JackCompiler

namespace CommandLine

open FileSystem (walk Visits foldl_walk_names foldl_walk_base walk_name)
open JackCompiler.Path (isProper codeName)

variable {α : Type} {fs : FileSystem α} {input dir : Path} {m n : SourceName}

/-- **The target of a source is the path of its code** below the output directory or the input. -/
theorem target_path (s : String) (output : Option String) (n : SourceName) :
    target (n.path (.ofString s)) (.ofString s) (output.map .ofString)
      = n.codePath (.ofString (output.getD s)) := by
  have htarget := target_base s output n.isName n.stem_ne n.noSlash
  rw [List.append_assoc] at htarget
  exact htarget

namespace SourceName

theorem isProper_codeName (n : SourceName) : isProper (codeName n.stem) :=
  Path.isProper_codeName n.stem_ne

theorem codeName_of_ne (h : n.stem ≠ ".") : codeName n.stem = n.stem ++ "." ++ "vm" := by
  rw [codeName, if_neg h]

theorem codeName_ne_up (h : n.stem ≠ ".") : codeName n.stem ≠ ".." := by
  intro hup
  rw [codeName_of_ne h] at hup
  have hlast := congrArg (fun s : String => s.toList.getLast?) hup
  simp at hlast

theorem codeName_inj (h : codeName m.stem = codeName n.stem) : m.stem = n.stem := by
  by_cases hm : m.stem = "."
  · by_contra hne
    refine codeName_ne_up (fun hn => hne (hm.trans hn.symm)) (h.symm.trans ?_)
    rw [codeName, if_pos hm]
  · have hn : n.stem ≠ "." := by
      intro hn
      refine codeName_ne_up hm (h.trans ?_)
      rw [codeName, if_pos hn]
    rwa [codeName_of_ne hm, codeName_of_ne hn, String.append_left_inj, String.append_left_inj] at h

theorem dropLast_codePath (n : SourceName) (dir : Path) :
    (n.codePath dir).pieces.dropLast = dir.base ++ n.names :=
  List.dropLast_concat

theorem destination_codePath (h : n.stem ≠ ".") :
    fs.destination (n.codePath dir) = fs.destination dir ++ (n.names ++ [codeName n.stem]) := by
  rw [codePath, FileSystem.destination_concat, walk_name n.isProper_codeName (codeName_ne_up h),
    List.foldl_append, foldl_walk_names n.isName, foldl_walk_base, List.append_assoc]
  rfl

/-- The code of a source does not go to the place of a source. -/
theorem destination_codePath_ne (h : n.stem ≠ ".") (place : List String) :
    fs.destination (n.codePath dir) ≠ place ++ [m.fileName] := by
  intro heq
  rw [destination_codePath h, ← List.append_assoc] at heq
  obtain ⟨-, hname⟩ := List.append_singleton_inj.1 heq
  rw [codeName_of_ne h, fileName] at hname
  have hlast := congrArg (fun s : String => s.toList.getLast?) hname
  simp at hlast

/-- **The codes of two sources go to different places.** -/
theorem path_eq_of_destination (hm : m.stem ≠ ".") (hn : n.stem ≠ ".")
    (h : fs.destination (m.codePath dir) = fs.destination (n.codePath dir)) :
    m.path input = n.path input := by
  rw [destination_codePath hm, destination_codePath hn] at h
  obtain ⟨hnames, hcode⟩ := List.append_singleton_inj.1 (List.append_cancel_left h)
  rw [path, path, place, place, hnames, fileName, fileName, codeName_inj hcode]

/-- A source comes before the sources below a directory that has the name of its code. -/
theorem components_lt (hn : n.stem ≠ ".") (h : n.names ++ [codeName n.stem] <+: m.names) :
    (n.path input).components < (m.path input).components := by
  obtain ⟨rest, hrest⟩ := h
  refine Path.components_append_lt (fun name hname => (n.isName_place name hname).proper)
    (fun name hname => (m.isName_place name hname).proper) ?_
  have hname : n.fileName < codeName n.stem := by
    rw [codeName_of_ne hn, fileName, String.lt_iff_toList_lt]
    simp only [String.toList_append, List.append_assoc]
    exact List.append_left_lt (by decide)
  rw [place, place, ← hrest, List.append_assoc, List.append_assoc]
  exact List.append_left_lt (List.cons_lt_cons_iff.2 (.inl hname))

/-- **A directory for the code of a source is not in the way of a later one**, unless it is in its
own way. -/
theorem visits_destination (hle : (m.path input).components ≤ (n.path input).components)
    (hn : n.stem ≠ ".")
    (h : Visits (fs.origin dir.lead) (m.codePath dir).pieces.dropLast
      (fs.destination (n.codePath dir))) :
    Visits (fs.origin dir.lead) (n.codePath dir).pieces.dropLast
      (fs.destination (n.codePath dir)) := by
  rw [dropLast_codePath] at h ⊢
  rcases (FileSystem.visits_append_names m.isName).1 h with hbase | ⟨front, hfront, heq⟩
  · exact hbase.mono (List.prefix_append _ _)
  · rw [foldl_walk_base, destination_codePath hn] at heq
    rw [← List.append_cancel_left heq] at hfront
    exact absurd hle (not_le_of_gt (components_lt hn hfront))

theorem stem_ne_of_storable {contents : List String → Option α}
    (h : fs.Storable contents (n.codePath dir)) : n.stem ≠ "." := by
  intro hdot
  have hup : codeName n.stem = ".." := by rw [codeName, if_pos hdot]
  exact (FileSystem.fileName?_ne_none n.isProper_codeName).1 h.named hup

end SourceName

end CommandLine

end JackCompiler
