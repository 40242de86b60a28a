import ForkTree.Proofs.ArenaMap
import Mathlib.Logic.Function.Basic

/-!
An arena that serves a list of requests. Who only sees the requests and the answers sees a map from keys to
values (`Serves`): an insertion answers with a key the map does not have, a removal with the value it takes
out, and a listing with what the map holds, by slot. One request keeps the arena in order and is served as
the map serves it (`InOrder.serve`), and so is every list of requests to an empty arena, as long as no more
slots are full at a time than there are slot numbers (`serves_all_of_full_le`).
-/

namespace ForkTree.Arena

variable {α : Type}

inductive Request (α : Type) where
  | insert (v : α)
  | remove (key : NodeKey)
  | get (key : NodeKey)
  /-- Look up a value to change it in its place. -/
  | modify (key : NodeKey) (change : α → α)
  | list

inductive Answer (α : Type) where
  | key (key : NodeKey)
  | value (v : Option α)
  | pairs (pairs : List (NodeKey × α))
  deriving DecidableEq, Repr

def serve (a : Arena α) : Request α → Answer α × Arena α
  | .insert v => (.key (a.insert v).1, (a.insert v).2)
  | .remove key => (.value (a.remove key).1, (a.remove key).2)
  | .get key => (.value (a.get? key), a)
  | .modify key change => (.value (a.get? key), a.modify key change)
  | .list => (.pairs a.entries, a)

def serveAll (a : Arena α) : List (Request α) → List (Answer α) × Arena α
  | [] => ([], a)
  | r :: requests =>
    let (answer, a) := a.serve r
    let (answers, a) := a.serveAll requests
    (answer :: answers, a)

/-- The number of full slots, counted. -/
def full (a : Arena α) : Nat := a.slots.countP fun s => s.value.isSome

/-- A request to a map, an answer it may get, and the map behind it. -/
inductive Serves : (NodeKey → Option α) → Request α → Answer α → (NodeKey → Option α) → Prop where
  | insert {m : NodeKey → Option α} {v : α} {key : NodeKey} (fresh : m key = none) :
      Serves m (.insert v) (.key key) (Function.update m key (some v))
  | remove {m : NodeKey → Option α} {key : NodeKey} :
      Serves m (.remove key) (.value (m key)) (Function.update m key none)
  | get {m : NodeKey → Option α} {key : NodeKey} : Serves m (.get key) (.value (m key)) m
  | modify {m : NodeKey → Option α} {key : NodeKey} {change : α → α} :
      Serves m (.modify key change) (.value (m key)) (Function.update m key ((m key).map change))
  | list {m : NodeKey → Option α} {pairs : List (NodeKey × α)}
      (mem_iff : ∀ key v, (key, v) ∈ pairs ↔ m key = some v)
      (sorted : pairs.Pairwise fun p q => p.1.slot < q.1.slot) : Serves m .list (.pairs pairs) m

/-- Requests one after another, with their answers. -/
inductive ServesAll :
    (NodeKey → Option α) → List (Request α) → List (Answer α) → (NodeKey → Option α) → Prop where
  | nil {m : NodeKey → Option α} : ServesAll m [] [] m
  | cons {m m' m'' : NodeKey → Option α} {r : Request α} {answer : Answer α} {requests : List (Request α)}
      {answers : List (Answer α)} (head : Serves m r answer m')
      (tail : ServesAll m' requests answers m'') : ServesAll m (r :: requests) (answer :: answers) m''

/-- The free list names the empty slots, the counter counts the full ones, and every slot has a number. -/
structure InOrder (a : Arena α) : Prop where
  valid : a.IsValid
  size_eq : a.size = a.full
  size_add_free : a.size + a.free.length = a.slots.size
  slots_size_le : a.slots.size ≤ UInt32.size

lemma inOrder_empty : (empty : Arena α).InOrder := ⟨isValid_empty, rfl, rfl, Nat.zero_le _⟩

/-- Replacing a slot counts the new one for the old one. -/
lemma full_of_set {a b : Arena α} {i : Nat} {s s' : Slot α} (h : a.slots[i]? = some s)
    (hb : b.slots = a.slots.setIfInBounds i s') :
    b.full + s.value.isSome.toNat = a.full + s'.value.isSome.toNat := by
  obtain ⟨hi, hs⟩ := Array.getElem?_eq_some_iff.1 h
  have hset : b.full = a.full - (if s.value.isSome then 1 else 0) + if s'.value.isSome then 1 else 0 := by
    rw [full, hb, Array.setIfInBounds, dif_pos hi, Array.countP_set, hs, full]
  have hpos : s.value.isSome = true → 0 < a.full := fun hfull =>
    Array.countP_pos_iff.2 ⟨s, Array.mem_of_getElem? h, hfull⟩
  rw [hset]
  cases hold : s.value.isSome with
  | false => cases s'.value.isSome <;> simp
  | true =>
    have := hpos hold
    cases s'.value.isSome <;> simp <;> omega

lemma IsValid.full_insert {a : Arena α} (h : a.IsValid) (v : α) : (a.insert v).2.full = a.full + 1 := by
  cases hfree : a.free with
  | nil => simp [Arena.insert, hfree, full]
  | cons i free =>
    obtain ⟨s, hslot, hvalue⟩ := (h.mem_free i).1 (by simp [hfree])
    have := full_of_set (b := (a.insert v).2) hslot (by rw [Arena.insert, hfree])
    simpa [hvalue] using this

lemma full_remove {a : Arena α} {key : NodeKey} {v : α} (h : a.get? key = some v) :
    (a.remove key).2.full + 1 = a.full := by
  have := full_of_set (b := (a.remove key).2) (get?_eq_some_iff.1 h) (by rw [Arena.remove, h])
  simpa using this

@[simp]
lemma full_modify (a : Arena α) (key : NodeKey) (change : α → α) :
    (a.modify key change).full = a.full := by
  cases hget : a.get? key with
  | none => rw [Arena.modify, hget]
  | some v =>
    have := full_of_set (b := a.modify key change) (get?_eq_some_iff.1 hget) (by rw [Arena.modify, hget])
    exact Nat.add_right_cancel this

lemma InOrder.insert {a : Arena α} (h : a.InOrder) {v : α} (hroom : (a.insert v).2.full ≤ UInt32.size) :
    (a.insert v).2.InOrder := by
  have hcount : (a.insert v).2.size + (a.insert v).2.free.length = (a.insert v).2.slots.size := by
    have := h.size_add_free
    cases hfree : a.free <;> simp [Arena.insert, hfree] at this ⊢ <;> omega
  have hsize : (a.insert v).2.size = (a.insert v).2.full := by
    rw [size_insert, h.valid.full_insert, h.size_eq]
  refine ⟨h.valid.insert v, hsize, hcount, ?_⟩
  cases hfree : a.free with
  | nil =>
    -- A slot is added only when all others are full.
    have hnone : (a.insert v).2.free = [] := by rw [Arena.insert, hfree]
    rw [← hcount, hsize, hnone]
    exact hroom
  | cons i free =>
    have hslots : (a.insert v).2.slots.size = a.slots.size := by simp [Arena.insert, hfree]
    rw [hslots]
    exact h.slots_size_le

lemma InOrder.remove {a : Arena α} (h : a.InOrder) (key : NodeKey) : (a.remove key).2.InOrder := by
  cases hget : a.get? key with
  | none => rwa [Arena.remove, hget]
  | some v =>
    have hfull := full_remove hget
    have hfree : (a.remove key).2.free.length = a.free.length + 1 := by simp [Arena.remove, hget]
    have hsize := size_remove hget
    have := h.size_eq
    have := h.size_add_free
    refine ⟨h.valid.remove key, ?_, ?_, ?_⟩
    · omega
    · rw [slots_size_remove]
      omega
    · rw [slots_size_remove]
      exact h.slots_size_le

lemma InOrder.modify {a : Arena α} (h : a.InOrder) (key : NodeKey) (change : α → α) :
    (a.modify key change).InOrder := by
  have hfree : (a.modify key change).free = a.free := by
    unfold Arena.modify
    split <;> rfl
  refine ⟨h.valid.modify key change, ?_, ?_, ?_⟩
  · rw [size_modify, full_modify, h.size_eq]
  · rw [size_modify, slots_size_modify, hfree]
    exact h.size_add_free
  · rw [slots_size_modify]
    exact h.slots_size_le

/-- Every empty slot has a number, so the free list has it. -/
lemma InOrder.mem_free {a : Arena α} (h : a.InOrder) (i : Nat) :
    i ∈ a.free.map UInt32.toNat ↔ ∃ s, a.slots[i]? = some s ∧ s.value = none := by
  rw [List.mem_map]
  constructor
  · rintro ⟨j, hj, rfl⟩
    exact (h.valid.mem_free j).1 hj
  · rintro ⟨s, hs, hvalue⟩
    have hi : i < UInt32.size := Nat.lt_of_lt_of_le (Array.getElem?_eq_some_iff.1 hs).1 h.slots_size_le
    have hnumber : (UInt32.ofNat i).toNat = i := UInt32.toNat_ofNat_of_lt' hi
    exact ⟨UInt32.ofNat i, (h.valid.mem_free _).2 ⟨s, by rwa [hnumber], hvalue⟩, hnumber⟩

lemma mem_entries {a : Arena α} (h : a.slots.size ≤ UInt32.size) {key : NodeKey} {v : α} :
    (key, v) ∈ a.entries ↔ a.get? key = some v := by
  rw [get?_eq_some_iff, entries, List.mem_filterMap]
  constructor
  · rintro ⟨⟨⟨generation, value⟩, i⟩, hmem, hentry⟩
    rw [List.mk_mem_zipIdx_iff_getElem?, Array.getElem?_toList] at hmem
    have hi : i < UInt32.size := Nat.lt_of_lt_of_le (Array.getElem?_eq_some_iff.1 hmem).1 h
    obtain ⟨w, rfl, hw⟩ := Option.map_eq_some_iff.1 hentry
    cases hw
    rw [UInt32.toNat_ofNat_of_lt' hi]
    exact hmem
  · intro hslot
    refine ⟨(⟨key.generation, some v⟩, key.slot.toNat), ?_, ?_⟩
    · rw [List.mk_mem_zipIdx_iff_getElem?, Array.getElem?_toList]
      exact hslot
    · simp

lemma entries_sorted {a : Arena α} (h : a.slots.size ≤ UInt32.size) :
    a.entries.Pairwise fun p q => p.1.slot < q.1.slot := by
  rw [entries, List.pairwise_filterMap, List.pairwise_iff_getElem]
  intro i j hi hj hij p hp q hq
  rw [List.length_zipIdx, Array.length_toList] at hi hj
  rw [List.getElem_zipIdx] at hp hq
  obtain ⟨v, _, rfl⟩ := Option.map_eq_some_iff.1 hp
  obtain ⟨w, _, rfl⟩ := Option.map_eq_some_iff.1 hq
  rw [UInt32.lt_iff_toNat_lt, UInt32.toNat_ofNat_of_lt' (by omega), UInt32.toNat_ofNat_of_lt' (by omega)]
  omega

/-! ### Serving requests -/

theorem InOrder.serve {a : Arena α} (h : a.InOrder) (r : Request α)
    (hroom : (a.serve r).2.full ≤ UInt32.size) :
    (a.serve r).2.InOrder ∧ Serves a.get? r (a.serve r).1 (a.serve r).2.get? := by
  cases r with
  | insert v =>
    have horder := h.insert hroom
    have hmap : (a.insert v).2.get? = Function.update a.get? (a.insert v).1 (some v) := by
      funext key
      rw [get?_insert h.valid v horder.slots_size_le, Function.update_apply]
    refine ⟨horder, ?_⟩
    rw [Arena.serve, hmap]
    exact .insert (get?_insert_key h.valid v horder.slots_size_le)
  | remove key =>
    have hmap : (a.remove key).2.get? = Function.update a.get? key none := by
      funext other
      rw [get?_remove, Function.update_apply]
    have hanswer : (a.remove key).1 = a.get? key := by
      rw [Arena.remove]
      cases a.get? key <;> rfl
    refine ⟨h.remove key, ?_⟩
    rw [Arena.serve, hmap, hanswer]
    exact .remove
  | get key => exact ⟨h, .get⟩
  | modify key change =>
    have hmap : (a.modify key change).get? = Function.update a.get? key ((a.get? key).map change) := by
      funext other
      rw [get?_modify, Function.update_apply]
    refine ⟨h.modify key change, ?_⟩
    rw [Arena.serve, hmap]
    exact .modify
  | list => exact ⟨h, .list (fun _ _ => mem_entries h.slots_size_le) (entries_sorted h.slots_size_le)⟩

lemma InOrder.serveAll {a : Arena α} (h : a.InOrder) (requests : List (Request α))
    (hroom : ∀ n, (a.serveAll (requests.take n)).2.full ≤ UInt32.size) :
    (a.serveAll requests).2.InOrder ∧
      ServesAll a.get? requests (a.serveAll requests).1 (a.serveAll requests).2.get? := by
  induction requests generalizing a with
  | nil => exact ⟨h, .nil⟩
  | cons r requests ih =>
    obtain ⟨horder, hserves⟩ := h.serve r (hroom 1)
    obtain ⟨horder', hall⟩ := ih horder fun n => hroom (n + 1)
    exact ⟨horder', .cons hserves hall⟩

/-- The counter counts the full slots after any requests, also when there are more slots than numbers. -/
theorem size_serveAll (requests : List (Request α)) :
    (serveAll empty requests).2.size = (serveAll empty requests).2.full := by
  suffices h : ∀ a : Arena α, a.IsValid → a.size = a.full →
      (a.serveAll requests).2.size = (a.serveAll requests).2.full from h empty isValid_empty rfl
  induction requests with
  | nil => exact fun a _ hsize => hsize
  | cons r requests ih =>
    intro a hvalid hsize
    cases r with
    | insert v =>
      exact ih (a.insert v).2 (hvalid.insert v) (by rw [size_insert, hvalid.full_insert, hsize])
    | remove key =>
      refine ih (a.remove key).2 (hvalid.remove key) ?_
      cases hget : a.get? key with
      | none => rw [Arena.remove, hget, hsize]
      | some v =>
        have hfull := full_remove hget
        have hless := size_remove hget
        omega
    | modify key change =>
      exact ih (a.modify key change) (hvalid.modify key change) (by rw [size_modify, full_modify, hsize])
    | get key => exact ih a hvalid hsize
    | list => exact ih a hvalid hsize

/-- A request fills no more than one slot. -/
lemma full_serveAll_le (a : Arena α) (requests : List (Request α)) :
    (a.serveAll requests).2.full ≤ a.slots.size + requests.length := by
  suffices h : (a.serveAll requests).2.slots.size ≤ a.slots.size + requests.length from
    Nat.le_trans Array.countP_le_size h
  induction requests generalizing a with
  | nil => exact Nat.le_refl _
  | cons r requests ih =>
    have hone : (a.serve r).2.slots.size ≤ a.slots.size + 1 := by
      cases r with
      | insert v => cases hfree : a.free <;> simp [serve, insert, hfree]
      | _ => simp [serve]
    have hall := ih (a.serve r).2
    rw [List.length_cons]
    exact Nat.le_trans hall (by omega)

/-- Behind every list of requests to an empty arena, with no more full slots at a time than there are slot
numbers: a map from keys to values has given these answers, and holds what the arena does; the free list
names the empty slots, each once; the counter counts the full ones; and a key that is not live is removed
without a change to the arena. -/
theorem serves_all_of_full_le (requests : List (Request α))
    (hroom : ∀ n, (serveAll empty (requests.take n)).2.full ≤ UInt32.size) :
    let a := (serveAll empty requests).2
    ServesAll (fun _ => none) requests (serveAll empty requests).1 a.get? ∧
      a.free.Nodup ∧ (∀ i, i ∈ a.free.map UInt32.toNat ↔ ∃ s, a.slots[i]? = some s ∧ s.value = none) ∧
      a.size = a.full ∧ ∀ key, a.get? key = none → a.remove key = (none, a) := by
  intro a
  obtain ⟨horder, hserves⟩ := inOrder_empty.serveAll requests hroom
  have hempty : (empty : Arena α).get? = fun _ => none := rfl
  rw [hempty] at hserves
  refine ⟨hserves, horder.valid.free_nodup, horder.mem_free, horder.size_eq, fun key hkey => ?_⟩
  rw [remove, hkey]

/-- A slot used again, with a key that is removed twice, one that went stale and one never issued. -/
theorem serves_all_of_reused_slot :
    let requests : List (Request Nat) :=
      [.insert 1, .insert 2, .remove ⟨0, 0⟩, .remove ⟨0, 0⟩, .insert 3, .get ⟨0, 0⟩, .get ⟨9, 9⟩,
        .modify ⟨1, 0⟩ (· + 10), .list, .remove ⟨1, 0⟩]
    let a := (serveAll empty requests).2
    (∀ n, (serveAll empty (requests.take n)).2.full ≤ UInt32.size) ∧
      ServesAll (fun _ => none) requests
        [.key ⟨0, 0⟩, .key ⟨1, 0⟩, .value (some 1), .value none, .key ⟨0, 1⟩, .value none, .value none,
          .value (some 2), .pairs [(⟨0, 1⟩, 3), (⟨1, 0⟩, 12)], .value (some 12)] a.get? ∧
      a.free = [1] ∧ a.size = 1 ∧ a.full = 1 ∧ a.get? ⟨0, 0⟩ = none ∧ a.remove ⟨0, 0⟩ = (none, a) := by
  intro requests a
  have hroom : ∀ n, (serveAll empty (requests.take n)).2.full ≤ UInt32.size := by
    intro n
    have hfull := full_serveAll_le empty (requests.take n)
    have hlength : (requests.take n).length ≤ 10 := List.length_take_le' n requests
    have hslots : (empty : Arena Nat).slots.size = 0 := rfl
    have hsize : 10 ≤ UInt32.size := by decide
    omega
  obtain ⟨hserves, _, _, hsize, hremove⟩ := serves_all_of_full_le requests hroom
  exact ⟨hroom, hserves, rfl, rfl, hsize.symm, rfl, hremove _ rfl⟩

end ForkTree.Arena
