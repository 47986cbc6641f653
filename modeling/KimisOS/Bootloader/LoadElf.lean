import KimisOS.Bootloader.KernelImage
import KimisOS.Bootloader.ReadFile

/-!
# All that `load_elf` changes

Beside the page tables `load_elf` moves `kload_paddr` behind what it has mapped, by a
page for each page and by one more for each segment.  Below the page tables, where
the buffers of the boot loader are, it changes nothing.
-/

namespace KimisOS.Bootloader

open KimisOS.ByteStore

/-- The pages that `kload_paddr` is moved by. -/
def kernelPages (headers : List ProgramHeader) : ℕ :=
  (headers.map fun header => max 1 (header.memSize / 4096) + 1).sum

/-- The state of `load_elf` behind some headers. -/
structure Maps (start : Boot) (image : ℕ) (done : List ProgramHeader) (table : ℕ → ℕ)
    (boot : Boot) : Prop where
  mapped : Mapped start table boot (fileCalls image done)
  kload : boot.kloadPaddr = (start.kloadPaddr + 4096 * kernelPages done) % 2 ^ 32
  below : ∀ a < pageTable, boot.mem a = start.mem a

section Kload

variable {boot : Boot} {paddr rounds : ℕ}

theorem mapAddr_kload {vaddr : ℕ} :
    (Bootloader.mapAddr boot vaddr paddr).kloadPaddr = boot.kloadPaddr := by
  rw [Bootloader.mapAddr]
  dsimp only
  split
  · rfl
  · rfl

theorem mloop_kload {vaddr : ℕ} (hkload : boot.kloadPaddr < 2 ^ 32) :
    (Bootloader.mloop boot vaddr paddr rounds).kloadPaddr =
      (boot.kloadPaddr + 4096 * rounds) % 2 ^ 32 := by
  induction rounds generalizing boot vaddr paddr with
  | zero => exact (Nat.mod_eq_of_lt hkload).symm
  | succ rounds ih =>
      have hbound := Nat.mod_lt (boot.kloadPaddr + 0x1000) (show 0 < 2 ^ 32 by decide)
      rw [Bootloader.mloop, ih (by rwa [mapAddr_kload]), mapAddr_kload]
      dsimp only
      omega

end Kload

section Segments

variable {start boot : Boot} {table : ℕ → ℕ} {image size offset : ℕ} {file : ℕ → UInt8}
  {header : ProgramHeader} {headers done : List ProgramHeader}

@[simp]
theorem kernelPages_append (more : List ProgramHeader) :
    kernelPages (done ++ more) = kernelPages done + kernelPages more := by
  rw [kernelPages, List.map_append, List.sum_append]
  rfl

/-- One segment. -/
theorem Maps.mapSegment (hmaps : Maps start image done table boot)
    (hsegment : KernelSegment header) (himage : image % 4096 = 0)
    (hroom : pageTable +
      4096 * ((slots (fileCalls image (done ++ [header]))).card + 1) ≤ 2 ^ 32) :
    ∃ table', Maps start image (done ++ [header]) table'
      (Bootloader.mapSegment boot header.vaddr ((header.dataOffset + image) % 2 ^ 32)
        header.memSize) := by
  have hfilled := hsegment.filled
  rw [fileCalls_concat] at hroom
  obtain ⟨table', hmapped, hbelow⟩ := hmaps.mapped.mapSegment hsegment himage hroom
  refine ⟨table', by rwa [fileCalls_concat], ?_, fun a ha => ?_⟩
  · have hone : kernelPages [header] = max 1 (header.memSize / 4096) + 1 := by
      simp [kernelPages]
    rw [Bootloader.mapSegment, mloop_kload (Nat.mod_lt _ (by decide)), kernelPages_append, hone,
      hmaps.kload]
    dsimp only
    omega
  · rw [hbelow a ha]
    exact hmaps.below a ha

/-- `load_elf` on a loaded kernel returns its entry. -/
theorem loadElf_maps (hfile : KernelFile file size offset headers)
    (hfits : ImageFits image size (fileCalls image headers))
    (hloaded : Loaded start image size file) (hkload : start.kloadPaddr < 2 ^ 32) :
    ∃ enough next table, (∀ more, loadElf (enough + more) start image =
        some (next, ByteStore.readU32 file 24)) ∧
      Maps start image headers table next := by
  have hmaps : Maps start image [] (fun _ => 0) start :=
    ⟨mapped_start hloaded, (Nat.mod_eq_of_lt hkload).symm, fun _ _ => rfl⟩
  exact loadElf_keeps (fun hdone => hdone.mapped)
    (fun hdone hsegment hroom => hdone.mapSegment hsegment hfits.aligned hroom) hfile hfits
    hloaded hmaps

end Segments

end KimisOS.Bootloader
