/-
Dictionaries: finite maps kept as the list of their entries in strictly
increasing key order. The order is part of the type, so a dictionary has one
representation per content: two dictionaries that answer every lookup alike
are equal, and walking through one visits the keys in order.
-/
import LiftedCode.Fault
import LiftedCode.Text.Numeral

namespace LiftedCode

/-- A finite map from `κ` to `ν`, as its entries in increasing key order. -/
structure Dict (κ ν : Type) [Ord κ] where
  entries : List (κ × ν)
  sorted : entries.Pairwise (fun a b => compare a.1 b.1 = .lt)

namespace Dict

section

variable {κ ν : Type}

/-- Put `v` under `k` into a sorted list of entries, in place of what was there. -/
def insertEntry [Ord κ] (k : κ) (v : ν) : List (κ × ν) → List (κ × ν)
  | [] => [(k, v)]
  | (k', v') :: rest =>
    match compare k k' with
    | .lt => (k, v) :: (k', v') :: rest
    | .eq => (k, v) :: rest
    | .gt => (k', v') :: insertEntry k v rest

variable [Ord κ]

/-- Every key of the result is the inserted one or was there before. -/
theorem mem_insertEntry {k : κ} {v : ν} {l : List (κ × ν)} {e : κ × ν}
    (h : e ∈ insertEntry k v l) : e = (k, v) ∨ e ∈ l := by
  induction l with
  | nil => simpa [insertEntry] using h
  | cons p rest ih =>
    obtain ⟨k', v'⟩ := p
    simp only [insertEntry] at h
    split at h <;> simp only [List.mem_cons] at h ⊢
    · exact h
    · rcases h with h | h
      · exact .inl h
      · exact .inr (.inr h)
    · rcases h with h | h
      · exact .inr (.inl h)
      · rcases ih h with h | h
        · exact .inl h
        · exact .inr (.inr h)

theorem sorted_insertEntry [Std.TransOrd κ] {k : κ} {v : ν} {l : List (κ × ν)}
    (h : l.Pairwise (fun a b => compare a.1 b.1 = .lt)) :
    (insertEntry k v l).Pairwise (fun a b => compare a.1 b.1 = .lt) := by
  induction l with
  | nil => simp [insertEntry]
  | cons p rest ih =>
    obtain ⟨k', v'⟩ := p
    have hp := List.pairwise_cons.1 h
    simp only [insertEntry]
    split
    · rename_i hlt
      refine List.pairwise_cons.2 ⟨fun e he => ?_, h⟩
      rcases List.mem_cons.1 he with rfl | he
      · exact hlt
      · exact Std.TransCmp.lt_trans hlt (hp.1 e he)
    · rename_i heq
      refine List.pairwise_cons.2 ⟨fun e he => ?_, hp.2⟩
      exact Std.TransCmp.lt_of_eq_of_lt heq (hp.1 e he)
    · rename_i hgt
      refine List.pairwise_cons.2 ⟨fun e he => ?_, ih hp.2⟩
      rcases mem_insertEntry he with rfl | he
      · exact Std.OrientedCmp.lt_of_gt hgt
      · exact hp.1 e he

/-- Two dictionaries with the same entries are equal. -/
@[ext] theorem ext {a b : Dict κ ν} (h : a.entries = b.entries) : a = b := by
  cases a; cases b; cases h; rfl

/-- The dictionary without entries. -/
def empty : Dict κ ν := ⟨[], .nil⟩

instance : EmptyCollection (Dict κ ν) := ⟨empty⟩

instance : Inhabited (Dict κ ν) := ⟨empty⟩

instance [DecidableEq κ] [DecidableEq ν] : DecidableEq (Dict κ ν) := fun a b =>
  decidable_of_iff (a.entries = b.entries) ⟨ext, fun h => h ▸ rfl⟩

/-- The value of a key. -/
def get? (d : Dict κ ν) (k : κ) : Option ν :=
  (d.entries.find? fun e => compare k e.1 == .eq).map (·.2)

/-- Whether a key has a value. -/
def contains (d : Dict κ ν) (k : κ) : Bool := (d.get? k).isSome

/-- What is under `k`, where something has to be. -/
def get (d : Dict κ ν) (k : κ) : Except Fault ν :=
  match d.get? k with
  | some v => .ok v
  | none => .error .missingKey

/-- Put `v` under `k`, in place of what was there. -/
def insert [Std.TransOrd κ] (d : Dict κ ν) (k : κ) (v : ν) : Dict κ ν :=
  ⟨insertEntry k v d.entries, sorted_insertEntry d.sorted⟩

/-- Keep only the entries whose key and value pass the test. -/
def filter (d : Dict κ ν) (p : κ → ν → Bool) : Dict κ ν :=
  ⟨d.entries.filter fun e => p e.1 e.2, d.sorted.filter _⟩

/-- Take away what is under `k`. -/
def erase (d : Dict κ ν) (k : κ) : Dict κ ν := d.filter fun k' _ => compare k k' != .eq

/-- Put `v` under `k` if something is there already. -/
def replace [Std.TransOrd κ] (d : Dict κ ν) (k : κ) (v : ν) : Dict κ ν :=
  if d.contains k then d.insert k v else d

/-- Put `v` under `k` if nothing is there yet. The answer has what is there
afterwards. -/
def getOrInsert [Std.TransOrd κ] (d : Dict κ ν) (k : κ) (v : ν) : ν × Dict κ ν :=
  match d.get? k with
  | some v' => (v', d)
  | none => (v, d.insert k v)

/-- The keys, in their order. -/
def keys (d : Dict κ ν) : List κ := d.entries.map (·.1)

/-- The values, in the order of their keys. -/
def values (d : Dict κ ν) : List ν := d.entries.map (·.2)

/-- The number of entries. -/
def size (d : Dict κ ν) : Nat := d.entries.length

/-- Whether there are no entries. -/
def isEmpty (d : Dict κ ν) : Bool := d.entries.isEmpty

/-- Put all entries of a list into `d`, the later over the earlier. -/
def insertAll [Std.TransOrd κ] (d : Dict κ ν) (l : List (κ × ν)) : Dict κ ν :=
  l.foldl (fun d e => d.insert e.1 e.2) d

/-- The dictionary of a list of entries, in which the last of several entries
for a key counts. -/
def ofList [Std.TransOrd κ] (l : List (κ × ν)) : Dict κ ν := insertAll ∅ l

/-- The written form, from those of the keys and the values. -/
def text (key : κ → String) (value : ν → String) (d : Dict κ ν) : String :=
  "\x7b" ++ commaSeparated (d.entries.map fun e => key e.1 ++ ": " ++ value e.2) ++ "\x7d"

end

end Dict

end LiftedCode
