import Pepita.Vmm.MicroVm

set_option autoImplicit false

/-! # Creating a microVM

`MicroVm::create` and `VmConfigBuilder::build` of `vmm.rs`, which ask the same of a configuration.
`validate` bounds the number of vCPUs but not the memory, and `memory_bytes` multiplies words. So
the VM is the one asked for unless its memory has 2^64 bytes or more (`builtAsAsked_iff`).
-/

namespace Pepita.Vmm

/-! ## The builder -/

/-- `VmConfig::default`. -/
def VmConfig.default : VmConfig := ⟨1, 128⟩

/-- `VmConfigBuilder`. -/
structure VmConfigBuilder where
  config : VmConfig
  deriving DecidableEq, Repr

namespace VmConfigBuilder

def new : VmConfigBuilder := ⟨.default⟩

def vcpus (b : VmConfigBuilder) (count : UInt32) : VmConfigBuilder :=
  ⟨{ b.config with vcpus := count }⟩

def memoryMb (b : VmConfigBuilder) (mb : UInt64) : VmConfigBuilder :=
  ⟨{ b.config with memoryMb := mb }⟩

def build (b : VmConfigBuilder) : Except KernelError VmConfig := do
  b.config.validate
  return b.config

end VmConfigBuilder

/-! ## Creation -/

namespace MicroVm

/-- `vcpu_count`. -/
def vcpuCount (vm : MicroVm) : Nat := vm.vcpus.length

/-- The loop of `create`, `for i in 0..config.vcpus { vcpus.push(Vcpu::new(i)?) }`. -/
def createVcpus (n : UInt32) : Except KernelError (List Vcpu) :=
  (List.range n.toNat).foldlM (fun vcpus i => do
    let vcpu ← .ok (Vcpu.new (UInt32.ofNat i))
    return vcpus ++ [vcpu]) []

theorem createVcpus_eq (n : UInt32) :
    createVcpus n = .ok ((List.range n.toNat).map fun i => Vcpu.new (UInt32.ofNat i)) := by
  have hloop : createVcpus n = (List.range n.toNat).foldlM
      (fun vcpus i => pure (vcpus ++ [Vcpu.new (UInt32.ofNat i)])) [] := rfl
  rw [hloop, List.foldlM_pure, List.foldl_append_eq_append, List.nil_append,
    ← List.flatMap_def, ← List.map_eq_flatMap]
  rfl

/-- `create` with its loop. -/
theorem create_eq (config : VmConfig) :
    create config = do
      config.validate
      let vcpus ← createVcpus config.vcpus
      return { config, state := .created, vcpus, memorySize := config.memoryBytes,
               exitCount := 0 } := by
  rw [createVcpus_eq]
  rfl

/-- `create` accepts a configuration if `build` does, and then builds the VM it describes, with the
memory in bytes over the integers. -/
def BuiltAsAsked (config : VmConfig) : Prop :=
  ((∃ vm, create config = .ok vm) ↔
    ∃ c, ((VmConfigBuilder.new.vcpus config.vcpus).memoryMb config.memoryMb).build = .ok c) ∧
  ∀ vm, create config = .ok vm →
    vm.vcpuCount = config.vcpus.toNat ∧
    vm.vcpus.map (fun v => v.id.toNat) = List.range config.vcpus.toNat ∧
    vm.state = .created ∧
    vm.memorySize.toNat = config.memoryMb.toNat * 2 ^ 20

theorem validate_eq_ok_iff (config : VmConfig) :
    config.validate = .ok () ↔
      ¬ (config.vcpus = 0 ∨ config.vcpus > maxVcpus) ∧ config.memoryMb ≠ 0 := by
  unfold VmConfig.validate
  split_ifs with hvcpus hmemory
  · simp [hvcpus]
  · simp [hmemory]
  · simp [hvcpus, hmemory]

/-- An accepted configuration gives the fresh VM. -/
theorem create_eq_ok_iff (config : VmConfig) (vm : MicroVm) :
    create config = .ok vm ↔ config.validate = .ok () ∧ fresh config = vm := by
  rw [create_eq, createVcpus_eq]
  cases config.validate with
  | error e => simp [bind, Except.bind]
  | ok u => simp [bind, Except.bind, pure, Except.pure, fresh]

theorem build_eq_ok_iff (b : VmConfigBuilder) (c : VmConfig) :
    b.build = .ok c ↔ b.config.validate = .ok () ∧ b.config = c := by
  unfold VmConfigBuilder.build
  cases b.config.validate with
  | error e => simp [bind, Except.bind]
  | ok u => simp [bind, Except.bind, pure, Except.pure]

/-- `create` and `build` accept the same values. -/
theorem exists_create_iff_build (config : VmConfig) :
    (∃ vm, create config = .ok vm) ↔
      ∃ c, ((VmConfigBuilder.new.vcpus config.vcpus).memoryMb config.memoryMb).build = .ok c := by
  simp only [create_eq_ok_iff, build_eq_ok_iff, exists_and_left, exists_eq', and_true]
  exact Iff.rfl

/-- The vCPUs are numbered from zero on. -/
theorem fresh_vcpu_ids (config : VmConfig) :
    (fresh config).vcpus.map (fun v => v.id.toNat) = List.range config.vcpus.toNat := by
  have hlt := config.vcpus.toNat_lt
  unfold fresh
  rw [List.map_map]
  refine (List.map_congr_left fun i hi => ?_).trans (List.map_id _)
  exact UInt32.toNat_ofNat_of_lt' ((List.mem_range.mp hi).trans hlt)

/-- The size of the memory does not wrap below 2^44 MB. -/
theorem toNat_memoryBytes_iff (config : VmConfig) :
    config.memoryBytes.toNat = config.memoryMb.toNat * 2 ^ 20 ↔ config.memoryMb.toNat < 2 ^ 44 := by
  have hlt := config.memoryMb.toNat_lt
  have hbytes : config.memoryBytes.toNat = config.memoryMb.toNat * 2 ^ 20 % 2 ^ 64 := by
    rw [VmConfig.memoryBytes, UInt64.toNat_mul, UInt64.toNat_mul]
    change config.memoryMb.toNat * 1024 % 2 ^ 64 * 1024 % 2 ^ 64 = _
    omega
  rw [hbytes]
  omega

/-- **When `create` builds the VM it was asked for.** -/
theorem builtAsAsked_iff (config : VmConfig) :
    BuiltAsAsked config ↔
      config.vcpus = 0 ∨ config.vcpus > maxVcpus ∨ config.memoryMb.toNat < 2 ^ 44 := by
  have hbuild := exists_create_iff_build config
  by_cases hv : config.validate = .ok ()
  · obtain ⟨hvcpus, -⟩ := (validate_eq_ok_iff config).mp hv
    rw [not_or] at hvcpus
    simp only [hvcpus, false_or]
    rw [← toNat_memoryBytes_iff]
    constructor
    · rintro ⟨-, hvm⟩
      exact (hvm (fresh config) ((create_eq_ok_iff _ _).mpr ⟨hv, rfl⟩)).2.2.2
    · intro hmemory
      refine ⟨hbuild, fun vm hvm => ?_⟩
      obtain ⟨-, rfl⟩ := (create_eq_ok_iff _ _).mp hvm
      refine ⟨?_, fresh_vcpu_ids config, rfl, hmemory⟩
      rw [vcpuCount, fresh, List.length_map, List.length_range]
  · -- a configuration that is refused is asked for nothing
    refine iff_of_true ⟨hbuild, fun vm hvm => ?_⟩ ?_
    · exact absurd ((create_eq_ok_iff _ _).mp hvm).1 hv
    · rw [validate_eq_ok_iff, not_and_or, not_not, not_not] at hv
      rcases hv with (hzero | hmax) | hmemory
      · exact .inl hzero
      · exact .inr (.inl hmax)
      · exact .inr (.inr (by rw [hmemory]; decide))

/-- One vCPU and 2^44 MB: the VM is created, with no memory. -/
theorem memory_wraps :
    let config : VmConfig := ⟨1, UInt64.ofNat (2 ^ 44)⟩
    (∃ vm, create config = .ok vm ∧ vm.memorySize = 0) ∧ ¬ BuiltAsAsked config := by
  intro config
  have hcreate : create config = .ok (fresh config) := by decide
  have hsize : (fresh config).memorySize = 0 := by decide
  refine ⟨⟨_, hcreate, hsize⟩, fun h => ?_⟩
  have hmemory := (h.2 _ hcreate).2.2.2
  rw [hsize] at hmemory
  exact absurd hmemory (by decide)

end MicroVm

end Pepita.Vmm
