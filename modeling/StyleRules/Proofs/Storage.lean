import StyleRules.Store
import Mathlib.Data.List.Nodup
import Mathlib.Data.List.Perm.Subperm

namespace StyleRules

namespace Path

@[simp]
theorem parent_child (p : Path) (name : Text) : (p.child name).parent = p := by
  simp [parent, child]

theorem child_ne_root (p : Path) (name : Text) : p.child name ≠ root := by
  intro h
  have := congrArg (·.parts) h
  simp [child, root] at this

theorem child_ne_self (p : Path) (name : Text) : p ≠ p.child name := by
  intro h
  have := congrArg (·.parts.length) h
  simp [child] at this

theorem child_injective {p : Path} {a b : Text} (h : p.child a = p.child b) : a = b := by
  have := congrArg (·.parts) h
  simpa [child] using this

end Path

namespace Store

variable {s : Store} {p q : Path}

theorem entryAt?_put_self (e : Entry) (hp : p ≠ .root) : (s.put p e).entryAt? p = some e := by
  have hnone : (s.entries.filter (·.1 ≠ p)).find? (·.1 = p) = none := by
    simp [List.find?_eq_none]
  simp only [entryAt?, put, if_neg hp, List.find?_append, hnone]
  simp

theorem entryAt?_put_of_ne (e : Entry) (hq : q ≠ p) : (s.put p e).entryAt? q = s.entryAt? q := by
  have hfind : ∀ entries : List (Path × Entry),
      (entries.filter (·.1 ≠ p)).find? (·.1 = q) = entries.find? (·.1 = q) := by
    intro entries
    rw [List.find?_filter]
    congr 1
    funext x
    by_cases hx : x.1 = q
    · simp [hx, hq]
    · simp [hx]
  simp only [entryAt?, put, List.find?_append, hfind]
  simp [Ne.symm hq]

theorem isDirectory_root (s : Store) : s.isDirectory .root := by simp [isDirectory, entryAt?]

/-- A file can be written exactly where no directory stands in a directory that is there. -/
theorem write_eq_ok_iff {bytes : Bytes} {written : Store} :
    s.write p bytes = .ok written ↔
      s.isDirectory p = false ∧ s.isDirectory p.parent ∧ written = s.put p (.file bytes) := by
  unfold write
  by_cases hp : s.isDirectory p
  · simp [hp]
  · by_cases hd : s.isDirectory p.parent
    · simp [hp, hd, eq_comm]
    · simp [hp, hd]

theorem ne_root_of_write {bytes : Bytes} {written : Store} (h : s.write p bytes = .ok written) :
    p ≠ .root := by
  rintro rfl
  have hd := (write_eq_ok_iff.mp h).1
  rw [isDirectory_root] at hd
  cases hd

/-- What was written is read back. -/
theorem read_write {bytes : Bytes} {written : Store} (h : s.write p bytes = .ok written) :
    written.read p = .ok bytes := by
  have hp := ne_root_of_write h
  obtain ⟨_, _, rfl⟩ := write_eq_ok_iff.mp h
  simp [read, entryAt?_put_self _ hp]

/-- Writing a file changes no other path. -/
theorem entryAt?_write_of_ne {bytes : Bytes} {written : Store}
    (h : s.write p bytes = .ok written) (hq : q ≠ p) : written.entryAt? q = s.entryAt? q := by
  obtain ⟨_, _, rfl⟩ := write_eq_ok_iff.mp h
  exact entryAt?_put_of_ne _ hq

/-- A file that has been written can be written again. -/
theorem write_write {bytes more : Bytes} {written : Store}
    (h : s.write p bytes = .ok written) (hp : p ≠ p.parent) :
    ∃ again, written.write p more = .ok again := by
  have hroot := ne_root_of_write h
  obtain ⟨_, hd, rfl⟩ := write_eq_ok_iff.mp h
  refine ⟨_, write_eq_ok_iff.mpr ⟨?_, ?_, rfl⟩⟩
  · simp [isDirectory, entryAt?_put_self _ hroot]
  · rw [isDirectory, entryAt?_put_of_ne _ (Ne.symm hp)]
    exact hd

def hexValue (digits : Text) : Nat :=
  digits.foldl (fun n c => n * 16 + (if c.toNat < 58 then c.toNat - 48 else c.toNat - 87)) 0

theorem hexValue_toDigits (n : Nat) : hexValue (Nat.toDigits 16 n) = n := by
  have digit : ∀ d < 16, (if d.digitChar.toNat < 58 then d.digitChar.toNat - 48
      else d.digitChar.toNat - 87) = d := by decide
  induction n using Nat.strongRecOn with
  | ind n ih =>
    rw [Nat.toDigits_eq_if (by decide)]
    split
    next h =>
      have := digit n h
      simpa [hexValue] using this
    next h =>
      have hq := ih (n / 16) (by omega)
      have hd := digit (n % 16) (Nat.mod_lt n (by decide))
      unfold hexValue at hq ⊢
      rw [List.foldl_append, hq, List.foldl_cons, List.foldl_nil, hd]
      omega

theorem hexValue_zeros_append (n : Nat) (digits : Text) :
    hexValue (List.replicate n '0' ++ digits) = hexValue digits := by
  have zeros : (List.replicate n '0').foldl (fun n c =>
      n * 16 + (if c.toNat < 58 then c.toNat - 48 else c.toNat - 87)) 0 = 0 := by
    induction n with
    | zero => rfl
    | succ n ih => simpa [List.replicate_succ] using ih
  rw [hexValue, List.foldl_append, zeros]
  rfl

theorem scratchName_injective {m n : Nat} {suffix : Text}
    (h : scratchName m suffix = scratchName n suffix) : m = n := by
  have hv := congrArg hexValue (List.append_cancel_right h)
  simpa only [hexValue_zeros_append, hexValue_toDigits] using hv

/-- Of more paths than a store has entries, one is free. -/
theorem exists_free {paths : List Path} (distinct : paths.Nodup)
    (hroot : Path.root ∉ paths) (hlen : s.entries.length < paths.length) :
    ∃ p ∈ paths, s.entryAt? p = none := by
  by_contra hn
  have taken : paths ⊆ s.entries.map (·.1) := by
    intro p hp
    have he : s.entryAt? p ≠ none := fun he => hn ⟨p, hp, he⟩
    have hne : p ≠ .root := fun h => hroot (h ▸ hp)
    rw [entryAt?, if_neg hne, Ne, Option.map_eq_none_iff, List.find?_eq_none] at he
    push Not at he
    obtain ⟨x, hx, heq⟩ := he
    exact List.mem_map.mpr ⟨x, hx, by simpa using heq⟩
  have := (List.subperm_of_subset distinct taken).length_le
  simp only [List.length_map] at this
  omega

/-- The path chosen for a scratch file lies in the directory, and nothing stands there. -/
theorem freshPath_spec (s : Store) (directory : Path) (suffix : Text) :
    (s.freshPath directory suffix).parent = directory ∧
      s.freshPath directory suffix ≠ directory ∧
      s.entryAt? (s.freshPath directory suffix) = none := by
  let candidates := (List.range (s.entries.length + 1)).map fun n =>
    directory.child (scratchName n suffix)
  have distinct : candidates.Nodup := by
    apply List.Nodup.map
    · intro m n h
      exact scratchName_injective (Path.child_injective h)
    · exact List.nodup_range
  have hroot : Path.root ∉ candidates := by
    intro h
    obtain ⟨n, _, hn⟩ := List.mem_map.mp h
    exact Path.child_ne_root _ _ hn
  obtain ⟨free, hfree, hnone⟩ := exists_free (s := s) distinct hroot (by simp [candidates])
  have hsome : (candidates.find? fun p => (s.entryAt? p).isNone).isSome := by
    rw [List.find?_isSome]
    exact ⟨free, hfree, by simp [hnone]⟩
  obtain ⟨p, hp⟩ := Option.isSome_iff_exists.mp hsome
  have heq : s.freshPath directory suffix = p := by
    change (candidates.find? fun p => (s.entryAt? p).isNone).getD _ = p
    rw [hp]
    rfl
  obtain ⟨n, _, hn⟩ := List.mem_map.mp (List.mem_of_find?_eq_some hp)
  have hp' : (s.entryAt? p).isNone := by simpa using List.find?_some hp
  rw [heq]
  refine ⟨?_, ?_, Option.isNone_iff_eq_none.mp hp'⟩
  · rw [← hn, Path.parent_child]
  · rw [← hn]
    exact Ne.symm (Path.child_ne_self _ _)

end Store

end StyleRules
