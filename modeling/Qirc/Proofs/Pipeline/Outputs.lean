import Mathlib.Tactic.Common
import Qirc.Settings

/-!
# Where the artifacts of a batch go

Cleaning a path resolves its names one after the other, and what is left resolves to itself. So the
path of an artifact tells both its name and its directory, and two inputs of a batch share one
exactly if they have the same name up to the extension, and lie in the same directory or have their
artifacts put into one.
-/

namespace Qirc

open List

namespace Path

variable {absolute : Bool} {before : List String} {n p q : String}

/-- Names that are left when a path is resolved, the last one first. Steps up stand only in front,
and only if the path is relative. -/
def Resolved (absolute : Bool) : List String → Prop
  | [] => True
  | n :: before => Resolved absolute before ∧ n ≠ "" ∧ n ≠ "." ∧ '/' ∉ n.toList ∧
    (n = ".." → absolute = false ∧ ∀ m ∈ before, m = "..")

/-- A name that stands for itself. -/
structure Plain (n : String) : Prop where
  nonempty : n ≠ ""
  here : n ≠ "."
  up : n ≠ ".."
  inner : '/' ∉ n.toList

theorem Plain.resolve_eq (h : Plain n) : resolve absolute before n = n :: before := by
  simp only [resolve, h.nonempty, h.here, h.up, or_self, if_false]

theorem resolve_up : resolve absolute before ".." =
    if before.head? = some ".." ∨ before = [] ∧ absolute = false then ".." :: before
    else before.tail := by
  cases before with
  | nil => cases absolute <;> rfl
  | cons m rest =>
    by_cases hm : m = ".."
    · subst hm
      rfl
    · simp [resolve, hm]

theorem Resolved.resolve_eq (h : Resolved absolute (n :: before)) :
    resolve absolute before n = n :: before := by
  obtain ⟨-, hne, hdot, hinner, hup⟩ := h
  by_cases hn : n = ".."
  · obtain ⟨hrel, hall⟩ := hup hn
    rw [hn, resolve_up, if_pos]
    cases before with
    | nil => exact .inr ⟨rfl, hrel⟩
    | cons m rest => exact .inl (congrArg some (hall m mem_cons_self))
  · exact Plain.resolve_eq ⟨hne, hdot, hn, hinner⟩

section

variable (h : Resolved absolute before)

include h

theorem Resolved.resolve (hn : '/' ∉ n.toList) : Resolved absolute (resolve absolute before n) := by
  by_cases hup : n = ".."
  · rw [hup, resolve_up]
    split
    case isTrue hfront =>
      refine ⟨h, by decide, by decide, by decide, fun _ => ?_⟩
      obtain hhead | ⟨rfl, hrel⟩ := hfront
      · obtain ⟨rest, rfl⟩ := head?_eq_some_iff.1 hhead
        obtain ⟨-, -, -, -, hall⟩ := h
        exact ⟨(hall rfl).1, forall_mem_cons.2 ⟨rfl, (hall rfl).2⟩⟩
      · exact ⟨hrel, fun m hm => absurd hm not_mem_nil⟩
    case isFalse =>
      cases before with
      | nil => exact h
      | cons m rest => exact h.1
  · by_cases hskip : n = "" ∨ n = "."
    · simp only [Path.resolve, if_pos hskip]
      exact h
    · obtain ⟨hne, hdot⟩ := not_or.1 hskip
      rw [Plain.resolve_eq ⟨hne, hdot, hup, hn⟩]
      exact ⟨h, hne, hdot, hn, fun h => absurd h hup⟩

/-- What is left resolves to itself. -/
theorem Resolved.foldl_resolve : before.reverse.foldl (Path.resolve absolute) [] = before := by
  induction before with
  | nil => rfl
  | cons n before ih => rw [reverse_cons, foldl_append, ih h.1, foldl_cons, foldl_nil, h.resolve_eq]

theorem Resolved.mem : ∀ n ∈ before, n ≠ "" ∧ '/' ∉ n.toList := by
  induction before with
  | nil => exact fun n hn => absurd hn not_mem_nil
  | cons m before ih => exact forall_mem_cons.2 ⟨⟨h.2.1, h.2.2.2.1⟩, ih h.1⟩

end

/-! ## The names of a path -/

theorem names_append (p q : String) : names (p ++ "/" ++ q) = names p ++ names q := by
  simp only [names, String.toList_append, append_assoc]
  rw [← map_append, ← splitOn_append_cons_self]
  rfl

theorem names_of_not_mem (h : '/' ∉ n.toList) : names n = [n] := by
  rw [names, splitOn_eq_singleton h, map_singleton, String.ofList_toList]

theorem not_mem_names : ∀ n ∈ names p, '/' ∉ n.toList := by
  have hsplit : ∀ cs : List Char, ∀ xs ∈ cs.splitOn '/', '/' ∉ xs := by
    intro cs
    induction cs with
    | nil => simp
    | cons c cs ih =>
      rw [splitOn_cons_eq_if_modifyHead]
      split
      case isTrue => exact forall_mem_cons.2 ⟨not_mem_nil, ih⟩
      case isFalse hc =>
        cases hcs : cs.splitOn '/' with
        | nil => exact fun xs hxs => absurd hxs not_mem_nil
        | cons ys rest =>
          rw [hcs, forall_mem_cons] at ih
          refine forall_mem_cons.2 ⟨fun hmem => ?_, ih.2⟩
          rcases mem_cons.1 hmem with rfl | hmem
          · exact hc (beq_self_eq_true _)
          · exact ih.1 hmem
  intro n hn
  obtain ⟨xs, hxs, rfl⟩ := mem_map.1 hn
  rw [String.toList_ofList]
  exact hsplit _ xs hxs

/-- The names of a path that are left, the last one first. -/
def kept (p : String) : List String := (names p).foldl (resolve (isAbsolute p)) []

theorem resolved_kept (p : String) : Resolved (isAbsolute p) (kept p) :=
  foldlRecOn (names p) _ trivial fun _ h n hn => h.resolve (not_mem_names n hn)

section

variable (h : Resolved absolute before)

include h

/-- A text of names has these names, or only an empty one if there are none. -/
theorem names_text :
    names (String.intercalate "/" before.reverse) = if before = [] then [""] else before.reverse := by
  split
  case isTrue hnil => rw [hnil]; rfl
  case isFalse hne =>
    have hinner : ∀ cs ∈ before.reverse.map String.toList, '/' ∉ cs := by
      intro cs hcs
      obtain ⟨n, hn, rfl⟩ := mem_map.1 hcs
      exact (h.mem n (mem_reverse.1 hn)).2
    have hsplit : splitOn '/' ("/".toList.intercalate (before.reverse.map String.toList)) =
        before.reverse.map String.toList := splitOn_intercalate '/' hinner (by simpa using hne)
    rw [names, String.toList_intercalate, hsplit, map_map]
    simp

theorem foldl_names_text :
    (names (String.intercalate "/" before.reverse)).foldl (resolve absolute) [] = before := by
  rw [names_text h]
  split
  case isTrue hnil => rw [hnil]; rfl
  case isFalse => exact h.foldl_resolve

theorem isAbsolute_text : isAbsolute (String.intercalate "/" before.reverse) = false := by
  by_contra habs
  rw [Bool.not_eq_false, isAbsolute, beq_iff_eq, head?_eq_some_iff] at habs
  obtain ⟨cs, hcs⟩ := habs
  have hempty : "" ∈ names (String.intercalate "/" before.reverse) := by
    rw [names, hcs]
    exact mem_map.2 ⟨[], mem_cons_self, rfl⟩
  rw [names_text h] at hempty
  split at hempty
  case isTrue hnil =>
    rw [hnil] at hcs
    cases hcs
  case isFalse => exact (h.mem _ (mem_reverse.1 hempty)).1 rfl

end

/-- The path that is written for some names. -/
def written (absolute : Bool) (before : List String) : String :=
  let text := String.intercalate "/" before.reverse
  if absolute then "/" ++ text else if text = "" then "." else text

theorem clean_eq (p : String) : clean p = written (isAbsolute p) (kept p) := rfl

/-- A path that is written for what is left has these names and no others. -/
theorem Resolved.kept_written (h : Resolved absolute before) :
    isAbsolute (written absolute before) = absolute ∧ kept (written absolute before) = before := by
  have hfold := foldl_names_text h
  unfold written
  cases absolute with
  | true =>
    have habs : isAbsolute ("/" ++ String.intercalate "/" before.reverse) = true := by
      simp [isAbsolute]
    refine ⟨habs, ?_⟩
    show foldl (Path.resolve (isAbsolute ("/" ++ String.intercalate "/" before.reverse))) []
      (names ("" ++ "/" ++ String.intercalate "/" before.reverse)) = before
    rw [habs, names_append, foldl_append]
    exact hfold
  | false =>
    dsimp only
    rw [if_neg Bool.false_ne_true]
    split
    case isTrue hempty =>
      rw [hempty] at hfold
      exact ⟨rfl, hfold⟩
    case isFalse =>
      rw [kept, isAbsolute_text h]
      exact ⟨rfl, hfold⟩

theorem clean_eq_iff : clean p = clean q ↔ isAbsolute p = isAbsolute q ∧ kept p = kept q := by
  constructor
  · intro h
    obtain ⟨hp, hkp⟩ := (resolved_kept p).kept_written
    obtain ⟨hq, hkq⟩ := (resolved_kept q).kept_written
    rw [← clean_eq] at hp hkp hq hkq
    rw [← hp, ← hkp, ← hq, ← hkq, h]
    exact ⟨rfl, rfl⟩
  · rintro ⟨habs, hkept⟩
    rw [clean_eq, clean_eq, habs, hkept]

theorem clean_clean (p : String) : clean (clean p) = clean p :=
  clean_eq_iff.2 (resolved_kept p).kept_written

theorem clean_ne_empty (p : String) : clean p ≠ "" := by
  rw [clean_eq, written]
  split
  · simp [String.ext_iff]
  · split
    · decide
    · assumption

/-! ## A name in a directory -/

theorem Plain.kept_under {d : String} (hn : Plain n) (hd : d ≠ "") :
    isAbsolute (d ++ "/" ++ n) = isAbsolute d ∧ kept (d ++ "/" ++ n) = n :: kept d := by
  have habs : isAbsolute (d ++ "/" ++ n) = isAbsolute d := by
    obtain ⟨c, cs, hcs⟩ := exists_cons_of_ne_nil (mt String.toList_eq_nil_iff.1 hd)
    simp [isAbsolute, hcs]
  refine ⟨habs, ?_⟩
  rw [kept, habs, names_append, names_of_not_mem hn.inner, foldl_append, foldl_cons, foldl_nil,
    hn.resolve_eq]
  rfl

/-- The path of a file tells its directory and its name. -/
theorem join_eq_iff {d d' n' : String} (hd : d ≠ "") (hd' : d' ≠ "") (hn : Plain n)
    (hn' : Plain n') : join [d, n] = join [d', n'] ↔ clean d = clean d' ∧ n = n' := by
  have hjoin : ∀ d n, d ≠ "" → Plain n → join [d, n] = clean (d ++ "/" ++ n) := by
    intro d n hd hn
    simp [join, hd, hn.nonempty, String.intercalate_cons_cons]
  obtain ⟨habs, hkept⟩ := hn.kept_under hd
  obtain ⟨habs', hkept'⟩ := hn'.kept_under hd'
  rw [hjoin d n hd hn, hjoin d' n' hd' hn', clean_eq_iff, clean_eq_iff, habs, habs', hkept, hkept',
    cons.injEq, and_assoc, and_comm (b := n = n')]

theorem not_mem_base (h : base p ≠ "/") : '/' ∉ (base p).toList := by
  unfold base at h ⊢
  split
  case isTrue => decide
  case isFalse hp =>
    rw [if_neg hp] at h
    dsimp only at h ⊢
    split
    case isTrue hroot => exact absurd (if_pos hroot) h
    case isFalse =>
      intro hmem
      rw [String.toList_ofList, mem_reverse] at hmem
      simpa using all_eq_true.1 all_takeWhile _ hmem

theorem plain_stem (h : base p ≠ "/") (f : ArtifactFormat) : Plain (stem p ++ f.extension) := by
  have hext : f.extension ∈ [".ll", ".b64", ".bc"] := by cases f <;> simp [ArtifactFormat.extension]
  have hlong : ∀ e ∈ [".ll", ".b64", ".bc"], 2 < e.length ∧ '/' ∉ e.toList := by decide
  obtain ⟨hlength, hinner⟩ := hlong _ hext
  have hne : ∀ m : String, m.length ≤ 2 → stem p ++ f.extension ≠ m := by
    rintro m hm rfl
    rw [String.length_append] at hm
    omega
  refine ⟨hne _ (by decide), hne _ (by decide), hne _ (by decide), fun hmem => ?_⟩
  rw [String.toList_append, mem_append, stem, String.toList_ofList] at hmem
  exact hmem.elim (fun hmem => not_mem_base h (mem_of_mem_take hmem)) hinner

end Path

namespace BuildSettings

variable {s : BuildSettings} {a b : String}

/-- Two inputs share an artifact: it gets the same name in the same directory. -/
def Clash (s : BuildSettings) (a b : String) : Prop :=
  Path.stem a = Path.stem b ∧ (s.outDir = "" → Path.dir a = Path.dir b)

theorem outputPath_eq_iff (format : ArtifactFormat) (ha : Path.base a ≠ "/")
    (hb : Path.base b ≠ "/") :
    outputPath a s.outDir format = outputPath b s.outDir format ↔ s.Clash a b := by
  have hstem : Path.stem a ++ format.extension = Path.stem b ++ format.extension ↔
      Path.stem a = Path.stem b := by
    rw [String.ext_iff, String.toList_append, String.toList_append, append_left_inj, String.ext_iff]
  unfold outputPath Clash
  dsimp only
  split
  case isTrue hout =>
    have hclean : ∀ p, Path.clean (Path.dir p) = Path.dir p := fun p => Path.clean_clean _
    have hdir : ∀ p, Path.dir p ≠ "" := fun p => Path.clean_ne_empty _
    rw [Path.join_eq_iff (hdir a) (hdir b) (Path.plain_stem ha _) (Path.plain_stem hb _), hstem,
      hclean, hclean]
    simp only [hout, forall_const]
    exact and_comm
  case isFalse hout =>
    rw [Path.join_eq_iff hout hout (Path.plain_stem ha _) (Path.plain_stem hb _), hstem]
    simp [hout]

/-- In a batch whose settings are accepted no artifact takes the place of another if and only if no
two inputs clash. -/
theorem outputs_differ_iff (s : BuildSettings) (format : ArtifactFormat) (files : List String)
    (hs : s.check = .ok ()) (hfiles : files.length = s.inputs.length)
    (hinputs : ∀ input ∈ s.inputs, Path.base input ≠ "/") :
    ((s.requests format files).map (·.output)).Pairwise (· ≠ ·) ↔
      s.inputs.Pairwise fun a b => ¬s.Clash a b := by
  have houtputs : (s.requests format files).map (·.output) = s.inputs.map (s.outputOf format) := by
    have hzip : (s.inputs.zip files).map Prod.fst = s.inputs :=
      map_fst_zip (Nat.le_of_eq hfiles.symm)
    rw [requests, map_map]
    conv_rhs => rw [← hzip, map_map]
    rfl
  rw [houtputs, pairwise_map]
  by_cases hmany : 1 < s.inputs.length
  · have houtput : s.output = "" := by
      by_contra hne
      have hsome : s.inputs ≠ [] := ne_nil_of_length_pos (Nat.zero_lt_of_lt hmany)
      simp [check, hmany, hne, hsome] at hs
    have hpath : ∀ a, s.outputOf format a =
        outputPath a s.outDir (if format = .auto then .bitcode else format) := fun a => by
      rw [outputOf, if_neg (not_not.2 houtput), if_neg fun h => by omega]
    refine Pairwise.iff_of_mem fun {a b} ha hb => not_congr ?_
    rw [hpath, hpath]
    exact outputPath_eq_iff _ (hinputs a ha) (hinputs b hb)
  · have hone : ∀ R : String → String → Prop, s.inputs.Pairwise R := by
      intro R
      rcases hs : s.inputs with _ | ⟨a, _ | ⟨b, rest⟩⟩
      · exact Pairwise.nil
      · exact pairwise_singleton _ _
      · exact absurd (by simp [hs]) hmany
    exact iff_of_true (hone _) (hone _)

def twoDirectories (dir : String) : BuildSettings :=
  { inputs := ["a/x.json", "b/x.json"], outDir := dir }

/-- Beside their inputs the artifacts are apart. -/
theorem outputs_differ_beside :
    (((twoDirectories "").requests .llvmir ["a", "b"]).map (·.output)).Pairwise (· ≠ ·) :=
  (outputs_differ_iff (twoDirectories "") .llvmir ["a", "b"] rfl rfl (by decide +kernel)).2
    (pairwise_pair.2 fun h => absurd (h.2 rfl) (by decide +kernel))

/-- In one directory the second artifact takes the place of the first. -/
theorem outputs_clash_together :
    ((twoDirectories "out").requests .llvmir ["a", "b"]).map (·.output) =
      ["out/x.ll", "out/x.ll"] := by
  decide +kernel

end BuildSettings

end Qirc
