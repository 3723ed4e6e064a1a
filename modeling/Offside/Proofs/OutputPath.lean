/-
Where generated files go.

A generated file is beside its source, under the same name with another extension. An allowed
extension has a dot at its start and nowhere else, and no slash, so it can be told where it begins.
-/
import Offside.Proofs.Freshness

set_option autoImplicit false

open List

namespace Offside

theorem Text.withoutEnd_append (front tail : Text) : withoutEnd tail (front ++ tail) = front := by
  rw [withoutEnd, if_pos (isSuffixOf_iff_suffix.mpr (suffix_append ..)), length_append,
    Nat.add_sub_cancel, take_left]

namespace Path

variable {a b ext : Text}

/-- A path without its extension. -/
def stem (path : Text) : Text := Text.withoutEnd (extension path) path

theorem withExtension_eq_stem (path ext : Text) : withExtension path ext = stem path ++ ext := rfl

/-- A path is its stem and its extension. -/
theorem stem_append_extension (path : Text) : stem path ++ extension path = path := by
  have helement : element path <:+ path := ⟨_, directories_append_element path⟩
  obtain ⟨front, hfront⟩ := (extension_suffix_element path).trans helement
  have hstem : Text.withoutEnd (extension path) (front ++ extension path) = front := Text.withoutEnd_append _ _
  rw [hfront] at hstem
  rw [stem, hstem, hfront]

/-- An extension that the settings allow begins at the last dot, whatever it is put behind. -/
theorem extension_append (path : Text) (hext : Setting.isExtension ext) : extension (path ++ ext) = ext := by
  rcases ext with _ | ⟨dot, name⟩
  · cases hext
  rw [Setting.isExtension, Bool.and_eq_true, Bool.and_eq_true, beq_iff_eq] at hext
  obtain ⟨⟨rfl, -⟩, hname⟩ := hext
  have hbyte : ∀ b : UInt8, (Text.isLetter b || Text.isDigit b) →
      (!isSlash b) ∧ (b != '.'.toUInt8) := by decide +kernel
  have hplain : ∀ b ∈ name.reverse, (!isSlash b) ∧ (b != '.'.toUInt8) :=
    fun b hb => hbyte b (all_eq_true.mp hname b (mem_reverse.mp hb))
  have hreverse : (path ++ '.'.toUInt8 :: name).reverse = name.reverse ++ '.'.toUInt8 :: path.reverse := by simp
  have helement : ((path ++ '.'.toUInt8 :: name).reverse.takeWhile fun b => !isSlash b) =
      name.reverse ++ '.'.toUInt8 :: path.reverse.takeWhile fun b => !isSlash b := by
    rw [hreverse, takeWhile_append_of_pos fun b hb => (hplain b hb).1, takeWhile_cons_of_pos (by decide)]
  rw [extension, helement, if_pos (by simp), takeWhile_append_of_pos fun b hb => (hplain b hb).2,
    takeWhile_cons_of_neg (by decide)]
  simp

/-- An extension that the settings allow comes off again. -/
theorem stem_append (path : Text) (hext : Setting.isExtension ext) : stem (path ++ ext) = path := by
  rw [stem, extension_append path hext, Text.withoutEnd_append]

/-- A path is where a generated file goes if it has the right extension and, without it, is that of
the source. -/
theorem withExtension_eq_iff (hext : Setting.isExtension ext) :
    withExtension a ext = b ↔ stem a = stem b ∧ extension b = ext := by
  constructor
  · rintro rfl
    exact ⟨(stem_append _ hext).symm, extension_append _ hext⟩
  · rintro ⟨hstem, rfl⟩
    rw [withExtension_eq_stem, hstem, stem_append_extension]

end Path

namespace Command

/-- The settings allow nothing but extensions. -/
theorem isExtension_of_check {ext : Text} (h : Setting.extension.check (.text ext) = none) :
    Setting.isExtension ext := by
  by_contra hno
  simp [Setting.check, Setting.brokenForm?, Setting.typeName, Yaml.Value.typeName, hno] at h

/-- Generated files are apart from each other exactly if the sources are apart without their
extensions, and apart from the sources exactly if no source has the extension of generated files. -/
theorem outputs_apart_iff {files : List Text} {config : Config}
    (hext : Setting.extension.check (.text config.extension) = none) :
    ((files.map (outputPath config)).Nodup ↔ files.Pairwise fun a b => Path.stem a ≠ Path.stem b) ∧
    ((∀ file ∈ files, outputPath config file ∉ files) ↔
      ∀ file ∈ files, Path.extension file ≠ config.extension) := by
  have hallowed := isExtension_of_check hext
  refine ⟨?_, fun hnone file hfile hsame => ?_, fun hnone file hfile hmem => ?_⟩
  · rw [List.Nodup, pairwise_map]
    simp only [outputPath, Path.withExtension_eq_stem, ne_eq, append_left_inj]
  · -- With the extension of generated files it is its own output.
    refine hnone file hfile ?_
    have hself : outputPath config file = file := (Path.withExtension_eq_iff hallowed).mpr ⟨rfl, hsame⟩
    rw [hself]
    exact hfile
  · exact hnone _ hmem ((Path.withExtension_eq_iff hallowed).mp rfl).2

/-- Dots in directories, several dots, no extension, and nothing but one. -/
theorem outputs_apart_iff_dotted : Setting.extension.check (.text ({} : Config).extension) = none ∧
    ((["a.b.delight", "lib.v1/a", ".delight"] : List Text).map (outputPath {})).Nodup ∧
    ∀ file ∈ (["a.b.delight", "lib.v1/a", ".delight"] : List Text),
      outputPath {} file ∉ (["a.b.delight", "lib.v1/a", ".delight"] : List Text) := by
  obtain ⟨hoften, hover⟩ := @outputs_apart_iff ["a.b.delight", "lib.v1/a", ".delight"] {} (by decide)
  exact ⟨by decide, hoften.mpr (by decide), hover.mpr (by decide)⟩

/-- Two sources with one output, and a source that is its own output. -/
theorem outputs_collide : Setting.extension.check (.text ({} : Config).extension) = none ∧
    (["a.delight", "a.txt", "b.d"] : List Text).Nodup ∧
    ¬ ((["a.delight", "a.txt", "b.d"] : List Text).map (outputPath {})).Nodup ∧
    outputPath {} "b.d" ∈ (["a.delight", "a.txt", "b.d"] : List Text) := by
  decide

end Command

end Offside
