import StackScript.Proofs.Flow

/-!
Sound heaps. The typing of handles is kept beside the heap: a cell of a known type has content of that type, and
its closures can be called. Cells that nothing can reach any more need no type.
-/
namespace StackScript

/-- The handles in the static values of all modules. -/
def Library.statics (l : Library) : List Handle :=
  l.modules.toList.flatMap fun m => m.values.toList.flatMap Value.handles

namespace View

variable {v : View} {Ψ Ψ' : Typing} {h h' : Heap} {roots : List Handle} {n b : Nat} {t : Ty} {x : Content}
  {r : Handle}

/-- Content of a type that refers to no module beyond a bound. -/
inductive Contains (v : View) (Ψ : Typing) (n : Nat) : Ty → Content → Prop
  | string (s : String) : Contains v Ψ n .string (.string s)
  | list {e : Ty} {m : Nat} {bs : Bytes} {rs : List Handle}
    (lays : Ψ.Lays n (Shape.ofTys (List.replicate m e)) bs.reverse rs []) :
    Contains v Ψ n (.list e) (.list e bs)
  | closure {ps : List Ty} {r : Ty} {captured : List Ty} {c : Closure} {rs : List Handle}
    (callee : v.Callee n c.function (captured ++ ps) r) (types : c.types = captured.reverse)
    (lays : Ψ.Lays n (Shape.ofTys captured) c.bytes.reverse rs []) : Contains v Ψ n (.function ps r) (.closure c)

theorem Contains.readable (hx : v.Contains Ψ n t x) : ∃ hs, x.handles = .ok hs := by
  cases hx with
  | string s => exact ⟨[], rfl⟩
  | list lays => exact ⟨_, lays.listHandles⟩
  | closure _ types lays => exact ⟨_, Typing.Lays.closureHandles (by rwa [types, List.reverse_reverse])⟩

theorem Contains.mono (hx : v.Contains Ψ n t x) (e : ∀ s ∈ x.held, s.isNull = false → Ψ' s = Ψ s) :
    v.Contains Ψ' n t x := by
  cases hx with
  | string s => exact .string s
  | list lays =>
    rw [Content.held, lays.listHandles] at e
    exact .list (lays.mono (Nat.le_refl n) fun s hs => e s (by simpa using hs))
  | closure callee types lays =>
    have hh := Typing.Lays.closureHandles (by rwa [types, List.reverse_reverse])
    rw [Content.held, hh] at e
    exact .closure callee types (lays.mono (Nat.le_refl n) fun s hs => e s (by simpa using hs))

/-- A heap whose references are the roots and the static values, with the types of what they lead to. -/
structure Sound (v : View) (Ψ : Typing) (h : Heap) (roots : List Handle) : Prop where
  balanced : h.Balanced (roots ++ v.library.statics)
  contents : ∀ r x t n, h.filled? r = some x → Ψ r = some (t, n) → v.Contains Ψ n t x
  statics : ∀ id (x : Value), (v.library.get id).alive → x ∈ (v.library.get id).values → Ψ.Describes id x

namespace Sound

theorem congr {roots' : List Handle} (hs : v.Sound Ψ h roots)
    (e : ∀ r : Handle, r.isNull = false → roots.count r = roots'.count r) : v.Sound Ψ h roots' :=
  { hs with balanced := hs.balanced.congr fun r hr => by rw [List.count_append, List.count_append, e r hr] }

theorem perm {roots' : List Handle} (hs : v.Sound Ψ h roots) (p : roots.Perm roots') : v.Sound Ψ h roots' :=
  hs.congr fun r _ => p.count_eq r

theorem consNull (hs : v.Sound Ψ h roots) (hr : r.isNull) : v.Sound Ψ h (r :: roots) :=
  { hs with balanced := hs.balanced.consNull hr }

theorem holds (hs : v.Sound Ψ h roots) (hr : r ∈ roots) (hn : r.isNull = false) : h.Holds r :=
  hs.balanced.holds (.inl (List.mem_append_left _ hr)) hn

theorem holds_static (hs : v.Sound Ψ h roots) (hr : r ∈ v.library.statics) (hn : r.isNull = false) :
    h.Holds r :=
  hs.balanced.holds (.inl (List.mem_append_right _ hr)) hn

/-- What a handle of a known type leads to. -/
theorem content (hs : v.Sound Ψ h roots) (hf : Ψ.Fits b t r) (hr : h.Holds r) (hn : r.isNull = false) :
    ∃ x m, m ≤ b ∧ h.filled? r = some x ∧ v.Contains Ψ m t x := by
  obtain ⟨x, hx⟩ := Heap.holds_iff.1 hr
  rw [Typing.Fits, hn] at hf
  obtain ⟨m, hm, ht⟩ := hf
  exact ⟨x, m, hm, hx, hs.contents r x t m hx ht⟩

theorem keeps {roots' : List Handle} (hs : v.Sound Ψ h roots) (hb : h'.Balanced (roots' ++ v.library.statics))
    (hk : h.Keeps h') : v.Sound Ψ h' roots' :=
  ⟨hb, fun r x t n hx ht => hs.contents r x t n (hk.filled r x hx) ht, hs.statics⟩

theorem incref (hs : v.Sound Ψ h roots) (hr : r.isNull = false → h.Holds r) :
    ∃ h', h.incref r = (h', .ok ()) ∧ v.Sound Ψ h' (r :: roots) ∧ h'.cells.size = h.cells.size ∧
      ∀ s, h'.filled? s = h.filled? s := by
  obtain ⟨h', e, hb, hsize, hf⟩ := hs.balanced.incref hr
  exact ⟨h', e, hs.keeps hb ⟨hsize, fun s x hx => hf s ▸ hx⟩, hsize, hf⟩

theorem increfs {rs : List Handle} (hs : v.Sound Ψ h roots) (hr : ∀ r ∈ rs, r.isNull = false → h.Holds r) :
    ∃ h', Heap.increfs rs h = (h', .ok ()) ∧ v.Sound Ψ h' (rs ++ roots) ∧ h'.cells.size = h.cells.size ∧
      ∀ s, h'.filled? s = h.filled? s := by
  obtain ⟨h', e, hb, hsize, hf⟩ := hs.balanced.increfs hr
  rw [← List.append_assoc] at hb
  exact ⟨h', e, hs.keeps hb ⟨hsize, fun s x hx => hf s ▸ hx⟩, hsize, hf⟩

theorem decref (hs : v.Sound Ψ h (r :: roots)) :
    ∃ h' b, h.decref r = (h', .ok b) ∧ v.Sound Ψ h' roots ∧ h.Keeps h' := by
  obtain ⟨h', b, e, hb, hk⟩ := hs.balanced.decref
  exact ⟨h', b, e, hs.keeps hb hk, hk⟩

theorem decrefs {rs : List Handle} (hs : v.Sound Ψ h (rs ++ roots)) :
    ∃ h', Heap.decrefs rs h = (h', .ok ()) ∧ v.Sound Ψ h' roots ∧ h.Keeps h' := by
  have hb := hs.balanced
  rw [List.append_assoc] at hb
  obtain ⟨h', e, hb, hk⟩ := hb.decrefs
  exact ⟨h', e, hs.keeps hb hk, hk⟩

theorem filled_held (hs : v.Sound Ψ h roots) {s : Handle} (hx : h.filled? r = some x) (hsx : s ∈ x.held)
    (hn : s.isNull = false) : h.Holds s := by
  obtain ⟨c, hc⟩ := Heap.filled?_eq_some.1 hx
  exact hs.balanced.holds (.inr (Heap.mem_inner hc hsx)) hn

end Sound

theorem mem_statics {l : Library} {id : Nat} {x : Value} (hx : x ∈ (l.get id).values) (hr : r ∈ x.handles) :
    r ∈ l.statics := by
  unfold Library.get at hx
  rw [Array.getD_eq_getD_getElem?] at hx
  cases hm : l.modules[id]? with
  | none => simp [hm, default, instInhabitedModule.default] at hx
  | some m =>
    rw [hm, Option.getD_some] at hx
    refine List.mem_flatMap.2 ⟨m, by simpa using Array.mem_of_getElem? hm, List.mem_flatMap.2 ⟨x, ?_, hr⟩⟩
    simpa using hx

/-- A static value can be described with any typing that agrees on the handles of the heap. -/
theorem Sound.describes (hs : v.Sound Ψ h roots) (e : ∀ s, h.Holds s → Ψ' s = Ψ s) {id : Nat} {x : Value}
    (ha : (v.library.get id).alive) (hx : x ∈ (v.library.get id).values) : Ψ'.Describes id x := by
  refine (hs.statics id x ha hx).mono (Nat.le_refl id) fun s hs' hn => e s (hs.holds_static ?_ hn)
  exact mem_statics hx (by simpa using hs')

/-- A new cell takes over references to what it contains. The typing is extended by its handle. -/
theorem Sound.alloc (hs : v.Sound Ψ h (x.held ++ roots)) (hx : v.Contains Ψ n t x)
    (hsize : (h.alloc x).1.cells.size ≤ Heap.capacity) :
    ∃ Ψ' : Typing, v.Sound Ψ' (h.alloc x).1 ((h.alloc x).2 :: roots) ∧ Ψ'.Fits n t (h.alloc x).2 ∧
      ∀ s, h.Holds s → Ψ' s = Ψ s := by
  have ha := Heap.allocates hs.balanced.tidy x hsize
  have hbal := hs.balanced
  rw [List.append_assoc] at hbal
  have hb := hbal.alloc hx.readable hsize ha
  obtain ⟨c, -, hc⟩ := ha.self
  have hn : (h.alloc x).2.isNull = false := hb.isNull_of_cell hc
  have hfresh : ∀ s, h.Holds s → s ≠ (h.alloc x).2 := by
    rintro s hs' rfl
    rw [Heap.Holds, ha.fresh] at hs'
    cases hs'
  have hagree : ∀ s, h.Holds s → (if s = (h.alloc x).2 then some (t, n) else Ψ s) = Ψ s :=
    fun s hs' => if_neg (hfresh s hs')
  refine ⟨fun s => if s = (h.alloc x).2 then some (t, n) else Ψ s, ⟨hb, fun s y u m hy hu => ?_, fun id y ha hy =>
    hs.describes hagree ha hy⟩, ?_, hagree⟩
  · by_cases hsr : s = (h.alloc x).2
    · subst hsr
      rw [Heap.filled?, hc] at hy
      cases hy
      rw [if_pos rfl] at hu
      cases hu
      exact hx.mono fun s hs' hn' => hagree s (hs.holds (List.mem_append_left _ hs') hn')
    · rw [if_neg hsr] at hu
      have hy' : h.filled? s = some y := by rwa [Heap.filled?, ← ha.others s hsr]
      exact (hs.contents s y u m hy' hu).mono fun q hq hn' => hagree q (hs.filled_held hy' hq hn')
  · rw [Typing.Fits, hn]
    exact ⟨n, Nat.le_refl n, if_pos rfl⟩

end View

end StackScript
