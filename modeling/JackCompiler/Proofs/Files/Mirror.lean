import JackCompiler.Proofs.Files.CodePaths
/-!
# The code of a directory

With an output directory, the code of a source is below it where the source is below the input, with
the extension of code. The one exception is a source `..jack`: without its extension it is called
`.`, which takes no other, and its code goes to `..`, which is no file. With or without an output
directory, the codes of two sources have different paths.
-/

namespace JackCompiler

/-- The path leads along names from a directory to what is below it. -/
def Path.Below (dir p : Path) : Prop :=
  ∃ names, names ≠ [] ∧ (∀ name ∈ names, IsName name) ∧ p = dir.join ⟨.relative, names⟩

namespace CommandLine

open JackCompiler.Path (IsName isProper codeName)
open FileTree (EntriesWellFormed)

variable {α : Type} {entries : List (String × FileTree α)} {dir : Path} {m n : SourceName}

namespace SourceName

/-- The location of the source, with the extension of code in place of its own. -/
def mirror (n : SourceName) : List String :=
  n.names ++ [n.stem ++ "." ++ "vm"]

/-- The location where the code of the source goes. -/
def codePlace (n : SourceName) : List String :=
  n.names ++ [codeName n.stem]

/-- The code of a source mirrors its place, unless the source is `..jack`. -/
theorem codePlace_of_ne (h : n.stem ≠ ".") : n.codePlace = n.mirror := by
  rw [codePlace, codeName_of_ne h, mirror]

/-- The code of `..jack` would go to the directory above. -/
theorem codePlace_of_eq (h : n.stem = ".") : n.codePlace = n.names ++ [".."] := by
  rw [codePlace, codeName, if_pos h]

theorem codePlace_ne_nil (n : SourceName) : n.codePlace ≠ [] :=
  List.append_ne_nil_of_right_ne_nil _ (List.cons_ne_nil _ _)

/-- All names on the way to the code of a source name something. -/
theorem isProper_codePlace (n : SourceName) : ∀ name ∈ n.codePlace, isProper name :=
  Path.isProper_concat_codeName n.isName n.stem_ne

/-- There is no slash in a name on the way to the code of a source. -/
theorem noSlash_codePlace (n : SourceName) : ∀ name ∈ n.codePlace, '/' ∉ name.toList :=
  Path.noSlash_concat_codeName n.isName n.noSlash

/-- The path for the code of a source is its place, joined to the output. -/
theorem codePath_eq_join (s : String) (n : SourceName) :
    n.codePath (.ofString s) = (Path.ofString s).join ⟨.relative, n.codePlace⟩ := by
  rw [Path.join_ofString s n.codePlace_ne_nil n.noSlash_codePlace n.isProper_codePlace, codePath,
    List.append_assoc, codePlace]

/-- **The code of a source goes below the directory unless it goes to `..`.** -/
theorem below_codePath (s : String) (n : SourceName) :
    Path.Below (.ofString s) (n.codePath (.ofString s)) ↔ n.stem ≠ "." := by
  constructor
  · rintro ⟨names, hne, hnames, hpath⟩ hstem
    rw [Path.join_ofString s hne (fun name hname => (hnames name hname).noSlash)
      (fun name hname => (hnames name hname).proper), codePath, List.append_assoc] at hpath
    have hplace : n.codePlace = names := List.append_cancel_left (congrArg Path.pieces hpath)
    rw [codePlace_of_eq hstem] at hplace
    have hup : IsName ".." := hnames ".." (by simp [← hplace])
    exact hup.ne_up rfl
  · intro hstem
    refine ⟨n.codePlace, n.codePlace_ne_nil, fun name hname => ?_, codePath_eq_join s n⟩
    refine ⟨n.isProper_codePlace name hname, ?_, n.noSlash_codePlace name hname⟩
    rcases List.mem_append.1 hname with hname | hname
    · exact (n.isName name hname).ne_up
    · rw [List.mem_singleton.1 hname]
      exact codeName_ne_up hstem

/-- The codes of two sources differ in the components of their paths. -/
theorem path_eq_of_components_codePath {input : Path}
    (h : (m.codePath dir).components = (n.codePath dir).components) :
    m.path input = n.path input := by
  rw [codePath, codePath, List.append_assoc, List.append_assoc] at h
  have hplace := Path.append_inj_of_components m.isProper_codePlace n.isProper_codePlace h
  obtain ⟨hnames, hcode⟩ := List.append_singleton_inj.1 hplace
  rw [path, path, place, place, fileName, fileName, hnames, codeName_inj hcode]

/-- A source is told by its place. -/
theorem eq_of_place (names : List String) (stem : String)
    (h : n.place = names ++ [stem ++ "." ++ "jack"]) : n.names = names ∧ n.stem = stem := by
  obtain ⟨hnames, hname⟩ := List.append_singleton_inj.1 h
  rw [fileName, String.append_left_inj, String.append_left_inj] at hname
  exact ⟨hnames, hname⟩

/-- Seen from the input, a source is at its place. -/
theorem relativeTo?_path (s : String) (n : SourceName) :
    (n.path (.ofString s)).relativeTo? (.ofString s) = some ⟨.relative, n.place⟩ :=
  Path.relativeTo?_base s n.place_ne_nil fun name hname => (n.isName_place name hname).proper

end SourceName

/-- **The code of a source mirrors it below the output directory**, unless the source is named
`..jack`: then its code goes to `..`, which is not below. **No two sources have their code at the
same path**, with or without an output directory. -/
theorem target_mirrors (input : String) (hwf : EntriesWellFormed entries) :
    (∀ p ∈ collect (.ofString input) (some (.directory entries)), ∃ n : SourceName,
      p.relativeTo? (.ofString input) = some ⟨.relative, n.place⟩ ∧ ∀ output : String,
        (n.stem ≠ "." →
          target p (.ofString input) (some (.ofString output))
              = (Path.ofString output).join ⟨.relative, n.mirror⟩ ∧
            Path.Below (.ofString output) (target p (.ofString input) (some (.ofString output)))) ∧
        (n.stem = "." →
          target p (.ofString input) (some (.ofString output))
              = (Path.ofString output).join ⟨.relative, n.names ++ [".."]⟩ ∧
            ¬ Path.Below (.ofString output)
              (target p (.ofString input) (some (.ofString output))))) ∧
    ∀ output : Option String, ∀ p ∈ collect (.ofString input) (some (.directory entries)),
      ∀ q ∈ collect (.ofString input) (some (.directory entries)), p ≠ q →
        (target p (.ofString input) (output.map .ofString)).components
          ≠ (target q (.ofString input) (output.map .ofString)).components := by
  have hinput := Path.spelled_ofString input
  constructor
  · intro p hp
    obtain ⟨n, rfl, -⟩ := (mem_collect hinput hwf).1 hp
    refine ⟨n, n.relativeTo?_path input, fun output => ?_⟩
    have htarget : target (n.path (.ofString input)) (.ofString input) (some (.ofString output))
        = n.codePath (.ofString output) := target_path input (some output) n
    rw [htarget, n.below_codePath, n.codePath_eq_join]
    refine ⟨fun hstem => ⟨?_, hstem⟩, fun hstem => ⟨?_, not_not.2 hstem⟩⟩
    · rw [SourceName.codePlace_of_ne hstem]
    · rw [SourceName.codePlace_of_eq hstem]
  · intro output p hp q hq hne heq
    obtain ⟨m, rfl, -⟩ := (mem_collect hinput hwf).1 hp
    obtain ⟨n, rfl, -⟩ := (mem_collect hinput hwf).1 hq
    rw [target_path, target_path] at heq
    exact hne (SourceName.path_eq_of_components_codePath heq)

/-- A directory with a source `..jack` and one with two dots in its name. -/
def dottedSources : List (String × FileTree Unit) :=
  [("..jack", .file ()), ("a.x.jack", .file ())]

theorem target_dottedSources :
    EntriesWellFormed dottedSources ∧
      (∀ name ∈ ["..jack", "a.x.jack"], Path.ofString ("src/./" ++ name) ∈
        collect (.ofString "src/.") (some (.directory dottedSources))) ∧
      target (.ofString "src/./a.x.jack") (.ofString "src/.") (some (.ofString "out"))
        = .ofString "out/a.x.vm" ∧
      Path.Below (.ofString "out") (.ofString "out/a.x.vm") ∧
      ¬ Path.Below (.ofString "out")
        (target (.ofString "src/./..jack") (.ofString "src/.") (some (.ofString "out"))) ∧
      (target (.ofString "src/./..jack") (.ofString "src/.") none).components
        ≠ (target (.ofString "src/./a.x.jack") (.ofString "src/.") none).components := by
  have hwf : EntriesWellFormed dottedSources :=
    of_decide_eq_true (p := (FileTree.directory dottedSources).WellFormed) (by decide +kernel)
  have hmem : ∀ name ∈ ["..jack", "a.x.jack"], Path.ofString ("src/./" ++ name) ∈
      collect (.ofString "src/.") (some (.directory dottedSources)) := by
    simp only [collect, List.mem_mergeSort]
    decide +kernel
  have hup := hmem "..jack" (by simp)
  have hdots := hmem "a.x.jack" (by simp)
  obtain ⟨hmirror, happart⟩ := target_mirrors "src/." hwf
  refine ⟨hwf, hmem, ?_⟩
  obtain ⟨m, hm, hup_code⟩ := hmirror _ hup
  obtain ⟨n, hn, hdots_code⟩ := hmirror _ hdots
  have hup_place : (⟨.relative, ["..jack"]⟩ : Path) = ⟨.relative, m.place⟩ :=
    Option.some_inj.1 (Eq.trans (by decide +kernel) hm)
  have hdots_place : (⟨.relative, ["a.x.jack"]⟩ : Path) = ⟨.relative, n.place⟩ :=
    Option.some_inj.1 (Eq.trans (by decide +kernel) hn)
  obtain ⟨-, hdot⟩ := SourceName.eq_of_place [] "." (congrArg Path.pieces hup_place).symm
  obtain ⟨hnames, hstem⟩ :=
    SourceName.eq_of_place [] "a.x" (congrArg Path.pieces hdots_place).symm
  obtain ⟨htarget, hbelow⟩ := (hdots_code "out").1 (by rw [hstem]; decide)
  have hpath : (Path.ofString "out").join ⟨.relative, n.mirror⟩ = .ofString "out/a.x.vm" := by
    rw [SourceName.mirror, hnames, hstem]
    decide +kernel
  rw [hpath] at htarget
  rw [htarget] at hbelow
  exact ⟨htarget, hbelow, ((hup_code "out").2 hdot).2,
    happart none _ hup _ hdots (by decide +kernel)⟩

/-- The code of `..jack` does not mirror it. -/
theorem target_dottedSources_up :
    Path.ofString "src/..jack" ∈ collect (.ofString "src") (some (.directory dottedSources)) ∧
      (Path.ofString "src/..jack").relativeTo? (.ofString "src") = some (.ofString "..jack") ∧
      target (.ofString "src/..jack") (.ofString "src") (some (.ofString "build"))
        = .ofString "build/.." ∧
      target (.ofString "src/..jack") (.ofString "src") (some (.ofString "build"))
        ≠ (Path.ofString "build").join (.ofString "..vm") := by
  refine ⟨?_, by decide +kernel, by decide +kernel, by decide +kernel⟩
  rw [collect, List.mem_mergeSort]
  decide +kernel

end CommandLine

end JackCompiler
