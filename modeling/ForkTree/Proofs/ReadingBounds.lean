import ForkTree.Digest.Blake3
import ForkTree.Proofs.LogReading
import ForkTree.Storage.Files

/-!
What the reader asks of a storage. `Asks` tells which ranges of a file it reads, by withholding them: a range
is asked for if the reading ends with the refusal, whatever its words, and all other ranges can be withheld
without a difference (`asks_or_read_eq`). A header is read where the file goes on, and what it announces
behind the header, which was read in full: no range starts behind the end of the file
(`read_eq_of_alike`, `Asks.offset_le`). So storages that differ there and nowhere else give the same contents
or the same error, such as files in memory and files of a file tree (`read_memory_eq_read_files`).
-/

namespace ForkTree

variable {σ τ : Type}

namespace Storage

/-- A file of `n` bytes, of which the storage gives no more than is there. -/
structure Bounds (storage : Storage σ) (path : String) (s : σ) (n : Nat) : Prop where
  size_eq : storage.size path s = .ok n
  length_le : ∀ offset len b, offset ≤ n → storage.readRange path offset len s = .ok b →
    offset + b.length ≤ n

/-- Two storages answer alike about a file of `n` bytes, up to its end. -/
structure Alike (storage : Storage σ) (path : String) (s : σ) (other : Storage τ) (path' : String)
    (s' : τ) (n : Nat) : Prop where
  size_eq : storage.size path s = other.size path' s'
  readRange_eq : ∀ offset len, offset ≤ n →
    storage.readRange path offset len s = other.readRange path' offset len s'

/-- The storage when it withholds one range of a file. -/
def withholding (storage : Storage σ) (path : String) (offset len : Nat) (fault : Fault) : Storage σ :=
  { storage with
    readRange := fun path' offset' len' s =>
      if path' = path ∧ offset' = offset ∧ len' = len then .error fault
      else storage.readRange path' offset' len' s }

variable {storage : Storage σ} {other : Storage τ} {path path' : String} {s : σ} {s' : τ} {n : Nat} {b : Bytes}

lemma Reads.bounds (h : storage.Reads path s b) : storage.Bounds path s b.length where
  size_eq := h.size_eq
  length_le offset len c hoffset hc := by
    rw [h.readRange_eq offset len hoffset] at hc
    cases hc
    rw [Bytes.slice, List.length_take, List.length_drop]
    omega

lemma Reads.alike (h : storage.Reads path s b) (h' : other.Reads path' s' b) :
    storage.Alike path s other path' s' b.length where
  size_eq := h.size_eq.trans h'.size_eq.symm
  readRange_eq offset len hoffset :=
    (h.readRange_eq offset len hoffset).trans (h'.readRange_eq offset len hoffset).symm

lemma Bounds.withholding (h : storage.Bounds path s n) (offset len : Nat) (fault : Fault) :
    (storage.withholding path offset len fault).Bounds path s n where
  size_eq := h.size_eq
  length_le offset' len' c hoffset hc := by
    simp only [Storage.withholding] at hc
    split at hc
    · cases hc
    · exact h.length_le offset' len' c hoffset hc

lemma Alike.withholding (h : storage.Alike path s other path' s' n) (offset len : Nat) (fault : Fault) :
    (storage.withholding path offset len fault).Alike path s
      (other.withholding path' offset len fault) path' s' n where
  size_eq := h.size_eq
  readRange_eq offset' len' hoffset := by
    simp only [Storage.withholding, true_and]
    split
    · rfl
    · exact h.readRange_eq offset' len' hoffset

/-- Behind the end of a file there is nothing to withhold. -/
lemma alike_withholding (hoffset : n < offset) (len : Nat) (fault : Fault) :
    storage.Alike path s (storage.withholding path offset len fault) path s n where
  size_eq := rfl
  readRange_eq offset' len' hle := by
    have hne : ¬ (path = path ∧ offset' = offset ∧ len' = len) := by omega
    exact (if_neg hne).symm

lemma reads_files {d : Disk} {place : List String} (h : d.look path = .ok (place, .file b)) :
    Storage.files.Reads path d b where
  size_eq := by
    change Files.size path d = _
    rw [Files.size, h]
  readRange_eq offset len hoffset := by
    change Files.readRange path offset len d = _
    have hseek : ¬ max b.length Files.maxSize < offset := by omega
    simp only [Files.readRange, h, if_neg hseek]

end Storage

namespace Log

variable {hash : Digest.Hash} {storage : Storage σ} {other : Storage τ} {path path' : String} {s : σ} {s' : τ}
  {n offset len : Nat}

/-- The reader asks for a range of a file: once it is withheld, reading ends with that fault. -/
def Asks (hash : Digest.Hash) (storage : Storage σ) (s : σ) (path : String) (offset len : Nat) : Prop :=
  ∀ fault, read hash (storage.withholding path offset len fault) s path = .error (.storage fault)

/-- The two ranges of a segment start within the file. -/
lemma readSegment_eq_of_alike (hbounds : storage.Bounds path s n)
    (halike : storage.Alike path s other path' s' n) (hoffset : offset ≤ n) :
    readSegment hash storage s path offset = readSegment hash other s' path' offset := by
  unfold readSegment
  rw [← halike.readRange_eq offset Header.size hoffset]
  cases hheader : storage.readRange path offset Header.size s with
  | error fault => rfl
  | ok header =>
    have hlength := hbounds.length_le offset Header.size header hoffset hheader
    by_cases hshort : header.length < Header.size
    · simp only [liftStorage, bind, Except.bind, if_pos hshort]
      rfl
    · have hbody : ∀ len, storage.readRange path (offset + Header.size) len s =
          other.readRange path' (offset + Header.size) len s' := fun len =>
        halike.readRange_eq _ len (by omega)
      simp only [hbody]

lemma readFrom_eq_of_alike (hbounds : storage.Bounds path s n)
    (halike : storage.Alike path s other path' s' n) (fuel offset : Nat) (c : Contents) :
    readFrom hash storage s path n fuel offset c = readFrom hash other s' path' n fuel offset c := by
  induction fuel generalizing offset c with
  | zero => rfl
  | succ fuel ih =>
    rw [readFrom, readFrom]
    by_cases hoffset : offset < n
    · rw [if_pos hoffset, if_pos hoffset, readSegment_eq_of_alike hbounds halike (Nat.le_of_lt hoffset)]
      simp only [ih]
    · rw [if_neg hoffset, if_neg hoffset]

theorem read_eq_of_alike (hbounds : storage.Bounds path s n)
    (halike : storage.Alike path s other path' s' n) :
    read hash storage s path = read hash other s' path' := by
  rw [read, read, ← halike.size_eq, hbounds.size_eq]
  exact readFrom_eq_of_alike hbounds halike n 0 .empty

/-! ### What is asked for -/

/-- A result that hinges on a refusal either is that refusal, or does not depend on it. -/
def Hinges {α : Type} (refused : Storage.Fault → Except Error α) (plain : Except Error α) : Prop :=
  (∀ fault, refused fault = .error (.storage fault)) ∨ ∀ fault, refused fault = plain

section Hinges

variable {α β : Type} {refused : Storage.Fault → Except Error α} {plain : Except Error α}

lemma hinges_self (plain : Except Error α) : Hinges (fun _ => plain) plain := .inr fun _ => rfl

lemma Hinges.bind (h : Hinges refused plain) {next : α → Storage.Fault → Except Error β}
    {later : α → Except Error β} (hnext : ∀ a, Hinges (next a) (later a)) :
    Hinges (fun fault => refused fault >>= fun a => next a fault) (plain >>= later) := by
  rcases h with h | h
  · exact .inl fun fault => by simp only [h]; rfl
  · cases hplain : plain with
    | error e => exact .inr fun fault => by simp only [h, hplain]; rfl
    | ok a =>
      rcases hnext a with h' | h'
      · exact .inl fun fault => by simp only [h, hplain]; exact h' fault
      · exact .inr fun fault => by simp only [h, hplain]; exact h' fault

lemma hinges_readRange (storage : Storage σ) (s : σ) (path path' : String)
    (offset offset' len len' : Nat) :
    Hinges (fun fault => liftStorage
        ((storage.withholding path offset len fault).readRange path' offset' len' s))
      (liftStorage (storage.readRange path' offset' len' s)) := by
  by_cases h : path' = path ∧ offset' = offset ∧ len' = len
  · exact .inl fun fault => by simp only [Storage.withholding, if_pos h]; rfl
  · exact .inr fun fault => by simp only [Storage.withholding, if_neg h]

end Hinges

lemma hinges_readSegment (hash : Digest.Hash) (storage : Storage σ) (s : σ) (path : String)
    (offset len at' : Nat) :
    Hinges (fun fault => readSegment hash (storage.withholding path offset len fault) s path at')
      (readSegment hash storage s path at') := by
  unfold readSegment
  refine (hinges_readRange storage s path path offset at' len Header.size).bind fun header => ?_
  split
  · exact hinges_self _
  · refine (hinges_self (Header.ofBytes? header)).bind fun h => ?_
    refine (hinges_self (h.checkSizes maxPayload)).bind fun _ => ?_
    refine (hinges_readRange storage s path path offset (at' + Header.size) len _).bind fun body => ?_
    exact hinges_self _

lemma hinges_readFrom (hash : Digest.Hash) (storage : Storage σ) (s : σ) (path : String)
    (offset len size fuel at' : Nat) (c : Contents) :
    Hinges (fun fault => readFrom hash (storage.withholding path offset len fault) s path size fuel at' c)
      (readFrom hash storage s path size fuel at' c) := by
  induction fuel generalizing at' c with
  | zero => exact hinges_self _
  | succ fuel ih =>
    simp only [readFrom]
    by_cases hmore : at' < size
    · simp only [if_pos hmore]
      refine (hinges_readSegment hash storage s path offset len at').bind fun segment => ?_
      exact (hinges_self (c.extend segment.1)).bind fun c => ih (at' + segment.2) c
    · simp only [if_neg hmore]
      exact hinges_self _

/-- A range that is not asked for does not matter. -/
theorem asks_or_read_eq (hash : Digest.Hash) (storage : Storage σ) (s : σ) (path : String)
    (offset len : Nat) :
    Asks hash storage s path offset len ∨
      ∀ fault, read hash (storage.withholding path offset len fault) s path = read hash storage s path := by
  refine Hinges.bind (hinges_self (liftStorage (storage.size path s))) fun size => ?_
  exact hinges_readFrom hash storage s path offset len size size 0 .empty

theorem Asks.offset_le (h : Asks hash storage s path offset len) (hbounds : storage.Bounds path s n) :
    offset ≤ n := by
  by_contra hoffset
  have hsame : ∀ fault, read hash storage s path = .error (.storage fault) := fun fault =>
    (read_eq_of_alike hbounds (Storage.alike_withholding (by omega) len fault)).trans (h fault)
  have hfault := (hsame (.pastEnd 0 0)).symm.trans (hsame (.pastEnd 0 1))
  simp at hfault

lemma asks_iff_of_alike (hbounds : storage.Bounds path s n)
    (halike : storage.Alike path s other path' s' n) :
    Asks hash storage s path offset len ↔ Asks hash other s' path' offset len := by
  refine forall_congr' fun fault => ?_
  rw [read_eq_of_alike (hbounds.withholding offset len fault) (halike.withholding offset len fault)]

/-- The same bytes as a file in memory, where reading behind the end is a fault, and as a file of a file tree,
where it is not: the reader asks for the same ranges, each of which starts within the file, it depends on no
other range, and it comes to the same contents or the same error. -/
theorem read_memory_eq_read_files (hash : Digest.Hash) {m : Storage.Memory} {d : Disk} {path path' : String}
    {place : List String} {b : Bytes} (hm : m.get? path = some b)
    (hd : d.look path' = .ok (place, .file b)) :
    (∀ offset len, Asks hash .memory m path offset len → offset ≤ b.length) ∧
      (∀ offset len, Asks hash .memory m path offset len ↔ Asks hash .files d path' offset len) ∧
      (∀ offset len, ¬ Asks hash .memory m path offset len → ∀ fault,
        read hash (Storage.memory.withholding path offset len fault) m path = read hash .memory m path) ∧
      read hash .memory m path = read hash .files d path' := by
  have hmemory : Storage.memory.Reads path m b := (Storage.keeps_memory path).reads hm
  have halike := hmemory.alike (Storage.reads_files hd)
  refine ⟨fun offset len h => h.offset_le hmemory.bounds, fun offset len => ?_, fun offset len h => ?_, ?_⟩
  · exact asks_iff_of_alike hmemory.bounds halike
  · exact (asks_or_read_eq hash .memory m path offset len).resolve_left h
  · exact read_eq_of_alike hmemory.bounds halike

/-- A file that ends right behind a header: the payload is asked for at the very end. -/
theorem read_memory_eq_read_files_of_header :
    let hash := Digest.Blake3.digest
    let b := Header.toBytes ⟨.plain, 5, 5⟩
    let m := Storage.Memory.empty.set "log" b
    let d : Disk := ⟨["work"], [(["work", "log"], .file b), (["work"], .directory)]⟩
    m.get? "log" = some b ∧ d.look "./log" = .ok (["work", "log"], .file b) ∧
      Asks hash .files d "./log" b.length (5 + checksumSize) ∧
      read hash .files d "./log" = .error (.corrupt (.truncatedSegment 0)) := by
  intro hash b m d
  have hm : m.get? "log" = some b := Storage.Memory.get?_set_self .empty "log" b
  have hstart : d.start "./log" = .ok (["work"], [".", "log"]) :=
    d.start_relative (by decide) (by simp) (by simp +decide [String.splitOn, String.splitOnAux])
  have hd : d.look "./log" = .ok (["work", "log"], .file b) := by
    rw [Disk.look, hstart]
    rfl
  obtain ⟨_, hasks, _, hsame⟩ := read_memory_eq_read_files hash hm hd
  refine ⟨hm, hd, (hasks _ _).1 fun fault => ?_, hsame ▸ ?_⟩
  · rfl
  · rfl

end Log

end ForkTree
