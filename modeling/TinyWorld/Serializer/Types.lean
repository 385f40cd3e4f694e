import Mathlib.Data.Multiset.MapFold

/-! # The types that can be serialised

A type is built from integers, strings and containers over `user` types, which
bring a serialiser of their own. Types of one `Shape` nest the same categories;
only the widths of the integers and the kinds of the containers differ. -/
namespace TinyWorld.Serializer

abbrev Bytes := List UInt8

/-! ## Integers -/

inductive IntTy
  | int8
  | int16
  | int32
  | int64
  | uint8
  | uint16
  | uint32
  | uint64
  | bool
  deriving DecidableEq

namespace IntTy

def lo : IntTy → Int
  | int8 => -128
  | int16 => -32768
  | int32 => -2147483648
  | int64 => -9223372036854775808
  | _ => 0

def hi : IntTy → Int
  | int8 => 127
  | int16 => 32767
  | int32 => 2147483647
  | int64 => 9223372036854775807
  | uint8 => 255
  | uint16 => 65535
  | uint32 => 4294967295
  | uint64 => 18446744073709551615
  | bool => 1

end IntTy

@[ext] structure IntVal (t : IntTy) where
  val : Int
  lo_le : t.lo ≤ val
  le_hi : val ≤ t.hi
  deriving DecidableEq

namespace IntTy

/-- The residue that fits; everything but zero is `true`. -/
def wrap (t : IntTy) (n : Int) : Int :=
  if t = bool then (if n = 0 then 0 else 1) else t.lo + (n - t.lo) % (t.hi - t.lo + 1)

theorem lo_le_hi (t : IntTy) : t.lo ≤ t.hi := by cases t <;> decide

theorem wrap_bounds (t : IntTy) (n : Int) : t.lo ≤ t.wrap n ∧ t.wrap n ≤ t.hi := by
  by_cases hb : t = bool
  · subst hb
    by_cases hn : n = 0 <;> simp [wrap, lo, hi, hn]
  · have hle := t.lo_le_hi
    have h0 := Int.emod_nonneg (n - t.lo) (b := t.hi - t.lo + 1) (by omega)
    have h1 := Int.emod_lt_of_pos (n - t.lo) (b := t.hi - t.lo + 1) (by omega)
    simp only [wrap, hb, if_false]
    omega

/-- The implicit conversion of an integer. -/
def cast (t : IntTy) (n : Int) : IntVal t := ⟨t.wrap n, (t.wrap_bounds n).1, (t.wrap_bounds n).2⟩

theorem cast_of_bounds (t : IntTy) {n : Int} (hlo : t.lo ≤ n) (hhi : n ≤ t.hi) :
    (t.cast n).val = n := by
  cases t <;> simp [cast, wrap, lo, hi] at * <;> omega

/-- **An integer survives 64 bits** on its way to any type that can represent it. -/
theorem cast_cast (t : IntTy) {n : Int} (hlo : t.lo ≤ n) (hhi : n ≤ t.hi) :
    (t.cast (uint64.cast n).val).val = n := by
  cases t <;> simp [cast, wrap, lo, hi] at * <;> omega

end IntTy

/-! ## Containers -/

inductive SeqKind
  | vector
  | list
  | deque

inductive SetKind
  | set
  | multiset
  | unorderedSet
  | unorderedMultiset

inductive MapKind
  | map
  | multimap
  | unorderedMap
  | unorderedMultimap

def SetKind.unique : SetKind → Bool
  | set => true
  | unorderedSet => true
  | _ => false

def MapKind.unique : MapKind → Bool
  | map => true
  | unorderedMap => true
  | _ => false

inductive Shape (ι : Type)
  | int
  | str
  | seq (elem : Shape ι)
  | set (elem : Shape ι)
  | map (key value : Shape ι)
  | user (i : ι)

inductive Ty (ι : Type) : Shape ι → Type
  | int (t : IntTy) : Ty ι .int
  | str : Ty ι .str
  | seq {s : Shape ι} (kind : SeqKind) (elem : Ty ι s) : Ty ι (.seq s)
  | set {s : Shape ι} (kind : SetKind) (elem : Ty ι s) : Ty ι (.set s)
  | map {s r : Shape ι} (kind : MapKind) (key : Ty ι s) (value : Ty ι r) : Ty ι (.map s r)
  | user (i : ι) : Ty ι (.user i)

variable {ι : Type} {s : Shape ι}

/-- The values of a type. A set or map is the list of its elements in the order
of iteration. -/
def Val (Obj : ι → Type) : {s : Shape ι} → Ty ι s → Type
  | _, .int t => IntVal t
  | _, .str => Bytes
  | _, .seq _ t => List (Val Obj t)
  | _, .set _ t => List (Val Obj t)
  | _, .map _ k v => List (Val Obj k × Val Obj v)
  | _, .user i => Obj i

/-- An object of the type, as `T obj;` leaves it. An integer is not initialised,
and nothing reads it before it is assigned; zero stands for it. -/
def fresh {Obj : ι → Type} (new : ∀ i, Obj i) : {s : Shape ι} → (t : Ty ι s) → Val Obj t
  | _, .int t => t.cast 0
  | _, .str => ([] : Bytes)
  | _, .seq _ t => ([] : List (Val Obj t))
  | _, .set _ t => ([] : List (Val Obj t))
  | _, .map _ k v => ([] : List (Val Obj k × Val Obj v))
  | _, .user i => new i

/-! ## Insertion -/

def pushBack {α : Type} (objects : List α) (obj : α) : List α := objects ++ [obj]

theorem foldl_pushBack {α : Type} (ys acc : List α) : ys.foldl pushBack acc = acc ++ ys := by
  induction ys generalizing acc with
  | nil => simp
  | cons y ys ih => simp [ih, pushBack]

/-- What the comparison or the hash of a set or map decides: which keys are the
same, and where a key goes. -/
structure Keys (Obj : ι → Type) where
  same : {s : Shape ι} → (t : Ty ι s) → Val Obj t → Val Obj t → Bool
  place : {s : Shape ι} → (t : Ty ι s) → List (Val Obj t) → Val Obj t → Nat

section Insertion

variable {α : Type} {Obj : ι → Type} (K : Keys Obj)

def insertAt (n : Nat) (x : α) (xs : List α) : List α := xs.take n ++ x :: xs.drop n

theorem insertAt_perm (n : Nat) (x : α) (xs : List α) : (insertAt n x xs).Perm (x :: xs) := by
  have hmid : (xs.take n ++ x :: xs.drop n).Perm (x :: (xs.take n ++ xs.drop n)) :=
    List.perm_middle
  rwa [List.take_append_drop] at hmid

/-- `insert` of a set. -/
def SetKind.insert (kind : SetKind) (t : Ty ι s) (xs : List (Val Obj t)) (x : Val Obj t) :
    List (Val Obj t) :=
  if kind.unique && xs.any (K.same t x) then xs else insertAt (K.place t xs x) x xs

variable {r : Shape ι}

/-- `insert` of a map. -/
def MapKind.insert (kind : MapKind) (k : Ty ι s) (v : Ty ι r) (xs : List (Val Obj k × Val Obj v))
    (e : Val Obj k × Val Obj v) : List (Val Obj k × Val Obj v) :=
  if kind.unique && xs.any (fun y => K.same k e.1 y.1) then xs
  else insertAt (K.place k (xs.map Prod.fst) e.1) e xs

theorem SetKind.insert_perm (kind : SetKind) {t : Ty ι s} {xs : List (Val Obj t)} {x : Val Obj t}
    (hnew : kind.unique = true → ∀ y ∈ xs, K.same t x y = false) :
    (kind.insert K t xs x).Perm (x :: xs) := by
  have hno : (kind.unique && xs.any (K.same t x)) = false := by
    cases hu : kind.unique with
    | false => rfl
    | true => simpa using hnew hu
  simp only [SetKind.insert, hno]
  exact insertAt_perm _ x xs

theorem MapKind.insert_perm (kind : MapKind) {k : Ty ι s} {v : Ty ι r}
    {xs : List (Val Obj k × Val Obj v)} {e : Val Obj k × Val Obj v}
    (hnew : kind.unique = true → ∀ y ∈ xs, K.same k e.1 y.1 = false) :
    (kind.insert K k v xs e).Perm (e :: xs) := by
  have hno : (kind.unique && xs.any (fun y => K.same k e.1 y.1)) = false := by
    cases hu : kind.unique with
    | false => rfl
    | true => simpa using hnew hu
  simp only [MapKind.insert, hno]
  exact insertAt_perm _ e xs

end Insertion

/-! ## Contents -/

/-- What the values of a shape hold: a list for a sequence, a multiset for a
set or a map. -/
def Contents (View : ι → Type) : Shape ι → Type
  | .int => Int
  | .str => Bytes
  | .seq s => List (Contents View s)
  | .set s => Multiset (Contents View s)
  | .map s r => Multiset (Contents View s × Contents View r)
  | .user i => View i

instance Contents.decEq {View : ι → Type} [∀ i, DecidableEq (View i)] :
    (s : Shape ι) → DecidableEq (Contents View s)
  | .int => inferInstanceAs (DecidableEq Int)
  | .str => inferInstanceAs (DecidableEq Bytes)
  | .seq s =>
    have : DecidableEq (Contents View s) := Contents.decEq s
    inferInstanceAs (DecidableEq (List (Contents View s)))
  | .set s =>
    have : DecidableEq (Contents View s) := Contents.decEq s
    inferInstanceAs (DecidableEq (Multiset (Contents View s)))
  | .map s r =>
    have : DecidableEq (Contents View s) := Contents.decEq s
    have : DecidableEq (Contents View r) := Contents.decEq r
    inferInstanceAs (DecidableEq (Multiset (Contents View s × Contents View r)))
  | .user i => inferInstanceAs (DecidableEq (View i))

def contents {Obj View : ι → Type} (view : ∀ i, Obj i → View i) :
    {s : Shape ι} → (t : Ty ι s) → Val Obj t → Contents View s
  | _, .int _, n => n.val
  | _, .str, b => b
  | _, .seq _ t, xs => List.map (contents view t) xs
  | _, .set _ t, xs => Multiset.ofList (List.map (contents view t) xs)
  | _, .map _ k v, xs =>
    Multiset.ofList (List.map (fun e => (contents view k e.1, contents view v e.2)) xs)
  | _, .user i, x => view i x

/-- Contents are seen through `h`. -/
def Contents.map {View Part : ι → Type} (h : ∀ i, View i → Part i) :
    (s : Shape ι) → Contents View s → Contents Part s
  | .int => id
  | .str => id
  | .seq s => List.map (Contents.map h s)
  | .set s => Multiset.map (Contents.map h s)
  | .map s r => Multiset.map fun e => (Contents.map h s e.1, Contents.map h r e.2)
  | .user i => h i

theorem contents_map {Obj View Part : ι → Type} (h : ∀ i, View i → Part i)
    (view : ∀ i, Obj i → View i) (t : Ty ι s) (x : Val Obj t) :
    contents (fun i y => h i (view i y)) t x = Contents.map h s (contents view t x) := by
  induction t with
  | int t => rfl
  | str => rfl
  | seq kind t ih =>
    change List (Val Obj t) at x
    simp only [contents, Contents.map, List.map_map, funext ih, Function.comp_def]
    rfl
  | set kind t ih =>
    change List (Val Obj t) at x
    simp only [contents, Contents.map, Multiset.map_coe, List.map_map, funext ih,
      Function.comp_def]
    rfl
  | map kind k v ihk ihv =>
    change List (Val Obj k × Val Obj v) at x
    simp only [contents, Contents.map, Multiset.map_coe, List.map_map, ihk, ihv,
      Function.comp_def]
    rfl
  | user i => rfl

/-- Keys that are the same hold the same. -/
def Keys.Sound {Obj View : ι → Type} (K : Keys Obj) (view : ∀ i, Obj i → View i) : Prop :=
  ∀ {s : Shape ι} (t : Ty ι s) (x y : Val Obj t),
    K.same t x y = true → contents view t x = contents view t y

/-- The comparison by contents; a new key goes first. -/
def Keys.byContents {Obj View : ι → Type} [∀ i, DecidableEq (View i)]
    (view : ∀ i, Obj i → View i) : Keys Obj where
  same t x y := decide (contents view t x = contents view t y)
  place _ _ _ := 0

theorem Keys.byContents_sound {Obj View : ι → Type} [∀ i, DecidableEq (View i)]
    (view : ∀ i, Obj i → View i) : (Keys.byContents view).Sound view :=
  fun _ _ _ h => of_decide_eq_true h

end TinyWorld.Serializer
