import Perspicua.Fs.Fat32.State

/-!
# The geometry of a volume

`fat32_geometry_from_bpb` derives the geometry of a volume from its boot sector, and the rest of
the driver computes block addresses from it in 32 bits. `Mount` is what the model of the driver
keeps of an accepted geometry, and `Volume` addresses sectors by cluster: that is right as long as
the addresses of different things differ and lie on the device. They do on every device that has
no block with the address `FAT32_LBA_INVALID` or a higher one.
-/

namespace Perspicua.Fs

/-! ## The boot sector -/

/-- The fields of `struct fat32_bpb` that the driver reads. -/
structure Bpb where
  bytesPerSector : UInt16
  sectorsPerCluster : UInt8
  reservedSectors : UInt16
  numFats : UInt8
  sectorsPerFat32 : UInt32
  rootCluster : UInt32

/-- The fields of `struct fat32_fs` that the driver computes with. -/
structure Geometry where
  sectorsPerCluster : ℕ
  numFats : ℕ
  sectorsPerFat : ℕ
  rootCluster : ℕ
  fatLbaStart : ℕ
  dataLbaStart : ℕ
  maxCluster : ℕ

def fat32SectorSize : ℕ := 512

/-- `FAT32_CLUSTER_MAX`: the values above are markers. -/
def fat32ClusterMax : ℕ := 0x0FFFFFF6

/-- The highest cluster that has room on the device, a number of its own and a word in the FAT. -/
def highestCluster (clusterCount sectorsPerFat : ℕ) : ℕ :=
  let maxCluster := if clusterCount + 1 > fat32ClusterMax then fat32ClusterMax else clusterCount + 1
  let fatCapacity := sectorsPerFat * (fat32SectorSize / 4)
  if maxCluster ≥ fatCapacity then fatCapacity - 1 else maxCluster

/-- `fat32_geometry_from_bpb`. The addresses are computed in 64 bits, in which none of the sums and
products overflows, and cut to 32 bits at the end. -/
def geometryFromBpb (bpb : Bpb) (partitionLba : UInt32) (deviceBlocks : UInt64) : Res Geometry :=
  let spc := bpb.sectorsPerCluster.toNat
  let reserved := bpb.reservedSectors.toNat
  let numFats := bpb.numFats.toNat
  let sectorsPerFat := bpb.sectorsPerFat32.toNat
  if bpb.bytesPerSector.toNat ≠ fat32SectorSize then .error .enotsup
  else if spc = 0 ∨ spc > 128 ∨ spc &&& (spc - 1) ≠ 0 then .error .einval
  else if reserved = 0 ∨ sectorsPerFat = 0 ∨ numFats < 1 ∨ numFats > 2 then .error .einval
  else if bpb.rootCluster.toNat < 2 then .error .einval
  else
    let fatLba := partitionLba.toNat + reserved
    let dataLba := fatLba + numFats * sectorsPerFat
    if dataLba ≥ deviceBlocks.toNat then .error .einval
    else
      let clusterCount := (deviceBlocks.toNat - dataLba) / spc
      if clusterCount = 0 then .error .einval
      else
        let maxCluster := highestCluster clusterCount sectorsPerFat
        if maxCluster < 2 then .error .einval
        else if bpb.rootCluster.toNat > maxCluster then .error .einval
        else .ok
          { sectorsPerCluster := spc
            numFats := numFats
            sectorsPerFat := sectorsPerFat
            rootCluster := bpb.rootCluster.toNat
            fatLbaStart := fatLba % 2 ^ 32
            dataLbaStart := dataLba % 2 ^ 32
            maxCluster := maxCluster % 2 ^ 32 }

/-! ## Block addresses -/

namespace Geometry

/-- `cluster_valid`. -/
def valid (g : Geometry) (c : ℕ) : Prop := 2 ≤ c ∧ c ≤ g.maxCluster

instance (g : Geometry) (c : ℕ) : Decidable (g.valid c) := inferInstanceAs (Decidable (_ ∧ _))

/-- `FAT32_LBA_INVALID`. -/
def lbaInvalid : ℕ := 0xFFF00000

/-- `cluster_to_lba`. -/
def clusterToLba (g : Geometry) (c : ℕ) : ℕ :=
  if g.valid c then (g.dataLbaStart + (c - 2) * g.sectorsPerCluster) % 2 ^ 32 else lbaInvalid

/-- The block of sector `s` of a cluster, as the callers of `cluster_to_lba` compute it. -/
def dataBlock (g : Geometry) (c s : ℕ) : ℕ := (g.clusterToLba c + s) % 2 ^ 32

/-- The block of a cluster's word in a copy of the FAT, as `set_fat_entry` computes it; the other
functions read the first copy. -/
def fatBlock (g : Geometry) (copy c : ℕ) : ℕ :=
  (g.fatLbaStart + copy * g.sectorsPerFat + c / 128) % 2 ^ 32

/-- The addresses that the driver computes are those of different blocks of the device, or of none
if there is no such cluster. -/
structure Sound (g : Geometry) (deviceBlocks : ℕ) : Prop where
  fat_lt : ∀ copy < g.numFats, ∀ c, g.valid c → g.fatBlock copy c < deviceBlocks
  data_lt : ∀ c, g.valid c → ∀ s < g.sectorsPerCluster, g.dataBlock c s < deviceBlocks
  fat_ne_data : ∀ copy < g.numFats, ∀ c c', g.valid c → g.valid c' →
    ∀ s < g.sectorsPerCluster, g.fatBlock copy c ≠ g.dataBlock c' s
  data_ne_data : ∀ c c', g.valid c → g.valid c' → c ≠ c' →
    ∀ s < g.sectorsPerCluster, ∀ s' < g.sectorsPerCluster, g.dataBlock c s ≠ g.dataBlock c' s'
  invalid_ge : ∀ c, ¬ g.valid c → ∀ s < g.sectorsPerCluster, deviceBlocks ≤ g.dataBlock c s

end Geometry

/-! ## What an accepted boot sector says -/

theorem pow_of_and_pred {n : ℕ} (h0 : n ≠ 0) (hle : n ≤ 128) (h : n &&& (n - 1) = 0) :
    ∃ k ≤ 7, n = 2 ^ k := by
  have hall : ∀ n ≤ 128, n ≠ 0 → n &&& (n - 1) = 0 → ∃ k ≤ 7, n = 2 ^ k := by decide
  exact hall n hle h0 h

theorem highestCluster_le (clusterCount sectorsPerFat : ℕ) :
    highestCluster clusterCount sectorsPerFat ≤ clusterCount + 1 ∧
      highestCluster clusterCount sectorsPerFat ≤ fat32ClusterMax ∧
      (0 < sectorsPerFat → highestCluster clusterCount sectorsPerFat < sectorsPerFat * 128) := by
  unfold highestCluster fat32SectorSize
  dsimp only
  split <;> split <;> omega

/-- The geometry of an accepted boot sector: where the FAT and the data start before they are cut
to 32 bits, and how the highest cluster is bounded. -/
structure Accepted (g : Geometry) (deviceBlocks fatLba dataLba : ℕ) : Prop where
  spc : ∃ k ≤ 7, g.sectorsPerCluster = 2 ^ k
  numFats : 1 ≤ g.numFats ∧ g.numFats ≤ 2
  root : 2 ≤ g.rootCluster ∧ g.rootCluster ≤ g.maxCluster
  fatStart : g.fatLbaStart = fatLba % 2 ^ 32
  dataStart : g.dataLbaStart = dataLba % 2 ^ 32
  fat_data : dataLba = fatLba + g.numFats * g.sectorsPerFat
  data_lt : dataLba < deviceBlocks
  max_le : g.maxCluster ≤ fat32ClusterMax
  max_lt_fat : g.maxCluster < g.sectorsPerFat * 128
  max_data : g.maxCluster ≤ (deviceBlocks - dataLba) / g.sectorsPerCluster + 1

theorem geometryFromBpb_accepted {bpb : Bpb} {partitionLba : UInt32} {deviceBlocks : UInt64}
    {g : Geometry} (h : geometryFromBpb bpb partitionLba deviceBlocks = .ok g) :
    ∃ fatLba dataLba, Accepted g deviceBlocks.toNat fatLba dataLba := by
  unfold geometryFromBpb at h
  dsimp only at h
  split at h
  · cases h
  split at h
  · cases h
  next hspc =>
  split at h
  · cases h
  next hfats =>
  split at h
  · cases h
  next hroot =>
  split at h
  · cases h
  next hdata =>
  split at h
  · cases h
  split at h
  · cases h
  split at h
  · cases h
  next hrootle =>
  cases h
  obtain ⟨hcount, hmax, hfat⟩ := highestCluster_le
    ((deviceBlocks.toNat - (partitionLba.toNat + bpb.reservedSectors.toNat +
      bpb.numFats.toNat * bpb.sectorsPerFat32.toNat)) / bpb.sectorsPerCluster.toNat)
    bpb.sectorsPerFat32.toNat
  have hcut := Nat.mod_eq_of_lt (Nat.lt_of_le_of_lt hmax (show fat32ClusterMax < 2 ^ 32 by decide))
  simp only [not_or, not_not, Nat.not_lt] at hspc hfats hroot hrootle
  refine ⟨_, _, pow_of_and_pred hspc.1 hspc.2.1 hspc.2.2, hfats.2.2, ⟨hroot, ?_⟩, rfl, rfl, rfl,
    Nat.lt_of_not_le hdata, ?_, ?_, ?_⟩
  · exact Nat.le_trans hrootle (Nat.le_of_eq hcut.symm)
  · exact Nat.le_trans (Nat.le_of_eq hcut) hmax
  · exact Nat.lt_of_le_of_lt (Nat.le_of_eq hcut) (hfat (Nat.pos_of_ne_zero hfats.2.1))
  · exact Nat.le_trans (Nat.le_of_eq hcut) hcount

/-- What the model of the driver keeps of an accepted geometry. -/
def Geometry.mount {g : Geometry} {deviceBlocks fatLba dataLba : ℕ}
    (h : Accepted g deviceBlocks fatLba dataLba) (env : Env) : Mount where
  sectorsPerCluster := g.sectorsPerCluster
  numFats := g.numFats
  rootCluster := g.rootCluster
  maxCluster := g.maxCluster
  spc_pow := h.spc
  numFats_pos := h.numFats.1
  numFats_le := h.numFats.2
  root_ge := h.root.1
  root_le := h.root.2
  max_le := h.max_le
  env := env

/-! ## The addresses on a device below the invalid address -/

namespace Accepted

open Geometry

variable {g : Geometry} {deviceBlocks fatLba dataLba c c' s s' copy : ℕ}

/-- The sectors of a valid cluster lie in the data area. -/
theorem sector_lt (h : Accepted g deviceBlocks fatLba dataLba) (hc : g.valid c)
    (hs : s < g.sectorsPerCluster) : dataLba + ((c - 2) * g.sectorsPerCluster + s) < deviceBlocks := by
  have hmax := h.max_data
  have hlt := h.data_lt
  have hcount : c - 2 + 1 ≤ (deviceBlocks - dataLba) / g.sectorsPerCluster := by
    have := hc.1
    have := hc.2
    omega
  have hroom : (c - 2 + 1) * g.sectorsPerCluster ≤ deviceBlocks - dataLba :=
    Nat.le_trans (Nat.mul_le_mul_right _ hcount) (Nat.div_mul_le_self _ _)
  rw [Nat.add_mul, Nat.one_mul] at hroom
  omega

theorem dataBlock_eq (h : Accepted g deviceBlocks fatLba dataLba) (hdev : deviceBlocks ≤ lbaInvalid)
    (hc : g.valid c) (hs : s < g.sectorsPerCluster) :
    g.dataBlock c s = dataLba + ((c - 2) * g.sectorsPerCluster + s) := by
  have hlt := h.sector_lt hc hs
  have hdata := h.data_lt
  unfold lbaInvalid at hdev
  rw [dataBlock, clusterToLba, if_pos hc, h.dataStart]
  generalize (c - 2) * g.sectorsPerCluster = off at hlt ⊢
  omega

theorem fatBlock_eq (h : Accepted g deviceBlocks fatLba dataLba) (hdev : deviceBlocks ≤ lbaInvalid)
    (hcopy : copy < g.numFats) (hc : g.valid c) :
    g.fatBlock copy c = fatLba + copy * g.sectorsPerFat + c / 128 ∧ g.fatBlock copy c < dataLba := by
  have hlt := h.data_lt
  have hmax := h.max_lt_fat
  have hword : c / 128 < g.sectorsPerFat := by
    have := hc.2
    omega
  have hcopies : (copy + 1) * g.sectorsPerFat ≤ g.numFats * g.sectorsPerFat :=
    Nat.mul_le_mul_right _ hcopy
  have hdata := h.fat_data
  rw [Nat.add_mul, Nat.one_mul] at hcopies
  unfold lbaInvalid at hdev
  rw [fatBlock, h.fatStart]
  generalize copy * g.sectorsPerFat = off at hcopies ⊢
  generalize g.numFats * g.sectorsPerFat = fats at hcopies hdata
  omega

theorem sound (h : Accepted g deviceBlocks fatLba dataLba) (hdev : deviceBlocks ≤ lbaInvalid) :
    g.Sound deviceBlocks where
  fat_lt := by
    intro copy hcopy c hc
    exact Nat.lt_trans (h.fatBlock_eq hdev hcopy hc).2 h.data_lt
  data_lt := by
    intro c hc s hs
    rw [h.dataBlock_eq hdev hc hs]
    exact h.sector_lt hc hs
  fat_ne_data := by
    intro copy hcopy c c' hc hc' s hs
    rw [h.dataBlock_eq hdev hc' hs]
    have := (h.fatBlock_eq hdev hcopy hc).2
    omega
  data_ne_data := by
    intro c c' hc hc' hne s hs s' hs'
    rw [h.dataBlock_eq hdev hc hs, h.dataBlock_eq hdev hc' hs']
    intro heq
    -- a sector and its cluster are read off the offset in the data area
    have hspc : 0 < g.sectorsPerCluster := by omega
    have hdiv := congrArg (· / g.sectorsPerCluster) (Nat.add_left_cancel heq)
    rw [Nat.mul_comm, Nat.mul_add_div hspc, Nat.div_eq_of_lt hs, Nat.mul_comm,
      Nat.mul_add_div hspc, Nat.div_eq_of_lt hs'] at hdiv
    have := hc.1
    have := hc'.1
    omega
  invalid_ge := by
    intro c hc s hs
    obtain ⟨k, hk, hspc⟩ := h.spc
    have hle : 2 ^ k ≤ 2 ^ 7 := Nat.pow_le_pow_right (by decide) hk
    rw [dataBlock, clusterToLba, if_neg hc]
    unfold lbaInvalid at hdev ⊢
    omega

end Accepted

/-- The addresses computed for an accepted volume are sound exactly if the device has no block at
`FAT32_LBA_INVALID`. -/
theorem geometry_sound_iff (bpb : Bpb) (partitionLba : UInt32) (deviceBlocks : UInt64) (g : Geometry)
    (h : geometryFromBpb bpb partitionLba deviceBlocks = .ok g) :
    g.Sound deviceBlocks.toNat ↔ deviceBlocks.toNat ≤ Geometry.lbaInvalid := by
  obtain ⟨fatLba, dataLba, haccepted⟩ := geometryFromBpb_accepted h
  constructor
  · intro hsound
    -- cluster 0 is never valid, and its first sector is at the invalid address
    have hspc : 0 < g.sectorsPerCluster := by
      obtain ⟨k, -, hspc⟩ := haccepted.spc
      rw [hspc]
      exact Nat.two_pow_pos k
    have h0 : ¬ g.valid 0 := fun h => absurd h.1 (by decide)
    have hge := hsound.invalid_ge 0 h0 0 hspc
    rwa [Geometry.dataBlock, Geometry.clusterToLba, if_neg h0] at hge
  · intro hdev
    exact haccepted.sound hdev

/-- A volume with 64 KiB clusters and a FAT for 2^27 of them. -/
def largeBpb : Bpb where
  bytesPerSector := 512
  sectorsPerCluster := 128
  reservedSectors := 32
  numFats := 2
  sectorsPerFat32 := 0x100000
  rootCluster := 2

/-- A device of 4 TiB: it has a block at the address for invalid clusters, and clusters 2 and
2 + 2^25 are given the same blocks. -/
theorem large_device_collides :
    ∃ g, geometryFromBpb largeBpb 2048 0x200000000 = .ok g ∧ g.valid 2 ∧ g.valid (2 + 2 ^ 25) ∧
      g.dataBlock 2 0 = g.dataBlock (2 + 2 ^ 25) 0 ∧ ¬ g.valid 0 ∧ g.dataBlock 0 0 < 0x200000000 := by
  refine ⟨_, rfl, ?_⟩
  decide +kernel

theorem geometry_sound_iff_large :
    ∃ g, geometryFromBpb largeBpb 2048 0x200000000 = .ok g ∧
      (g.Sound (0x200000000 : UInt64).toNat ↔ (0x200000000 : UInt64).toNat ≤ Geometry.lbaInvalid) :=
  ⟨_, rfl, geometry_sound_iff largeBpb 2048 0x200000000 _ rfl⟩

end Perspicua.Fs
