import Hare.Net.BufferSystem

/-!
# The cap on the size of a buffer

A buffer should not hold more than `maxSize` bytes.  `Buffer::Add` checks this, with a sum that
wraps around; `Buffer::Append` and `Buffer::Read` do not check it.  The calls below are those that
change the size, with any arguments: `Add` with any number of bytes a `std::size_t` can hold, and
`Read` with any answer of `readv`.

A call can fault, for reasons that have nothing to do with the size.  Nothing is said then about
the size afterwards; but `Add` of too many bytes should return false also where it faults instead.
-/

namespace Hare.Net

open LabelledRun

/-- The arguments of `Add`. -/
structure Bytes where
  bytes : List UInt8
  lt : bytes.length < 2 ^ 64

/-- The arguments of `Read`, with the answer of `readv`. -/
structure ReadCall where
  fuel : ℕ
  maxRead : ℕ
  available : ℕ
  howmuch : ℕ
  arrived : Option Payload

/-- The calls on the buffers of a program that change their sizes. -/
inductive SizeCall
  | new
  | add (i : ℕ) (arg : Bytes)
  | append (i j : ℕ)
  | read (i : ℕ) (r : ReadCall)
  | skip (i n : ℕ)

namespace ReadCall

/-- The call on a buffer. -/
def perform (r : ReadCall) (h : Heap) (b : Buffer) : Except Fault (ℕ × Heap × Buffer) :=
  b.read r.fuel h r.maxRead r.available r.howmuch (r.arrived.map Payload.bytes)

/-- The number of bytes `readv` delivers, when it is called. -/
def delivered (r : ReadCall) (h : Heap) (b : Buffer) : ℕ :=
  match b.prepareRead r.fuel h r.maxRead r.available r.howmuch with
  | .ok (_, _, vecs) => (Buffer.received vecs (r.arrived.map Payload.bytes)).length
  | .error _ => 0

end ReadCall

def System.sizeStep (s : System) : SizeCall → Except Fault System
  | .new => s.step .new
  | .add i arg => s.on i fun b => do
    let (_, h, b) ← b.add s.heap arg.bytes
    pure (h, b)
  | .append i j => s.step (.append i j)
  | .read i r => s.on i fun b => do
    let (_, h, b) ← r.perform s.heap b
    pure (h, b)
  | .skip i n => s.step (.skip i n)

/-- No buffer holds more than it may. -/
def Capped (s : System) : Prop := ∀ b ∈ s.buffers, b.size ≤ maxSize

/-- `Add` returns false exactly when the buffer would hold too much, and changes nothing then. -/
def Refuses (s : System) (b : Buffer) (bytes : List UInt8) : Prop :=
  ((∃ h' b', b.add s.heap bytes = .ok (false, h', b')) ↔ maxSize < b.size + bytes.length) ∧
    ∀ h' b', b.add s.heap bytes = .ok (false, h', b') → h' = s.heap ∧ b' = b

/-- What a call should do. -/
def Keeps (s : System) (call : SizeCall) : Prop :=
  (∀ i arg b, call = .add i arg → s.buffers[i]? = some b → Refuses s b arg.bytes) ∧
    ∀ s', s.sizeStep call = .ok s' → Capped s'

/-- The sum of `Add` does not wrap around, and what `Append` and `Read` come to, when they
return, is within the cap. -/
def Fits (s : System) : SizeCall → Prop
  | .new | .skip _ _ => True
  | .add i arg => ∀ b, s.buffers[i]? = some b → b.size + arg.bytes.length < 2 ^ 64
  | .append i j => ∀ a b s', i ≠ j → s.buffers[i]? = some a → s.buffers[j]? = some b →
    s.sizeStep (.append i j) = .ok s' → a.size + b.size ≤ maxSize
  | .read i r => ∀ b s', s.buffers[i]? = some b → s.sizeStep (.read i r) = .ok s' →
    b.size + r.delivered s.heap b ≤ maxSize

variable {s s' : System} {i j n : ℕ} {b b' : Buffer} {h h' : Heap}

/-! ## Sizes -/

/-- `Add` that gets by the check. -/
theorem add_eq_ok {bytes : List UInt8} {added : Bool}
    (hle : (b.size + bytes.length) % 2 ^ 64 ≤ maxSize)
    (hadd : b.add h bytes = .ok (added, h', b')) :
    added = true ∧ b'.size = (b.size + bytes.length) % 2 ^ 64 := by
  rw [Buffer.size] at hle
  rw [Buffer.add, if_neg (Nat.not_lt.mpr hle)] at hadd
  obtain ⟨⟨h₁, l⟩, -, hadd⟩ := bind_eq_ok hadd
  obtain ⟨c, -, hadd⟩ := bind_eq_ok hadd
  obtain ⟨c', -, hadd⟩ := bind_eq_ok hadd
  obtain ⟨h₂, -, hadd⟩ := bind_eq_ok hadd
  cases hadd
  exact ⟨rfl, rfl⟩

theorem size_skip (hskip : b.skip h n = .ok (h', b')) : b'.size ≤ b.size := by
  rw [Buffer.skip] at hskip
  split at hskip
  case isTrue =>
    obtain ⟨⟨h₁, l⟩, -, hskip⟩ := bind_eq_ok hskip
    cases hskip
    exact Nat.zero_le _
  case isFalse =>
    obtain ⟨⟨h₁, l⟩, -, hskip⟩ := bind_eq_ok hskip
    cases hskip
    exact Nat.sub_le _ _

theorem size_append {a a' : Buffer} (ha : a.size < 2 ^ 64)
    (happend : a.append h b = .ok (h', a', b')) :
    a'.size = (a.size + b.size) % 2 ^ 64 ∧ b'.size = 0 := by
  rw [Buffer.append] at happend
  split at happend
  case isTrue hzero =>
    cases happend
    rw [show b.size = 0 from hzero, Nat.add_zero, Nat.mod_eq_of_lt ha]
    exact ⟨rfl, rfl⟩
  case isFalse =>
    split at happend
    case isTrue =>
      cases happend
      exact ⟨rfl, rfl⟩
    case isFalse =>
      obtain ⟨⟨h₁, l, o⟩, -, happend⟩ := bind_eq_ok happend
      cases happend
      exact ⟨rfl, rfl⟩

theorem size_read {r : ReadCall} (hb : b.size < 2 ^ 64)
    (hread : r.perform h b = .ok (n, h', b')) :
    b'.size = (b.size + r.delivered h b) % 2 ^ 64 := by
  rw [ReadCall.perform, Buffer.read] at hread
  obtain ⟨⟨h₁, l, vecs⟩, hprep, hread⟩ := bind_eq_ok hread
  rw [ReadCall.delivered, hprep]
  dsimp only at hread ⊢
  obtain ⟨h₂, -, hread⟩ := bind_eq_ok hread
  split at hread
  case isTrue hnil =>
    cases hread
    rw [hnil, List.length_nil, Nat.add_zero, Nat.mod_eq_of_lt hb]
    rfl
  case isFalse =>
    obtain ⟨⟨h₃, l'⟩, -, hread⟩ := bind_eq_ok hread
    cases hread
    rfl

theorem delivered_lt (r : ReadCall) (h : Heap) (b : Buffer) : r.delivered h b < 2 ^ 63 := by
  rw [ReadCall.delivered]
  split
  case h_1 vecs _ =>
    rw [Buffer.received, List.length_take]
    cases r.arrived with
    | none => simp
    | some payload =>
        have := payload.fits
        simp [ptrdiffMax] at this ⊢
        omega
  case h_2 => simp

/-! ## One call -/

/-- A call on a buffer. -/
theorem on_eq_ok {call : Buffer → Except Fault (Heap × Buffer)} (hon : s.on i call = .ok s') :
    s' = s ∨ ∃ b h' b', s.buffers[i]? = some b ∧ call b = .ok (h', b') ∧
      s' = ⟨h', s.buffers.set i b'⟩ := by
  rw [System.on] at hon
  split at hon
  case h_1 b hb =>
    obtain ⟨⟨h', b'⟩, hcall, hon⟩ := bind_eq_ok hon
    cases hon
    exact Or.inr ⟨b, h', b', hb, hcall, rfl⟩
  case h_2 =>
    cases hon
    exact Or.inl rfl

theorem Capped.set (hs : Capped s) (hb' : b'.size ≤ maxSize) (i : ℕ) (h' : Heap) :
    Capped ⟨h', s.buffers.set i b'⟩ := by
  intro b hb
  rcases List.mem_or_eq_of_mem_set hb with hb | rfl
  · exact hs b hb
  · exact hb'

theorem Capped.of_set (hs : Capped ⟨h', s.buffers.set i b'⟩) (hb : s.buffers[i]? = some b) :
    b'.size ≤ maxSize :=
  hs b' (List.mem_set (List.getElem?_eq_some_iff.mp hb).1 b')

theorem Capped.size_le (hs : Capped s) (hb : s.buffers[i]? = some b) : b.size ≤ maxSize :=
  hs b (List.mem_of_getElem? hb)

theorem capped_init : Capped System.init := fun b hb => by cases hb

theorem Capped.step_new (hs : Capped s) (hstep : s.sizeStep .new = .ok s') : Capped s' := by
  cases hstep
  intro b hb
  rcases List.mem_append.mp hb with hb | hb
  · exact hs b hb
  · rw [List.mem_singleton.mp hb]
    exact Nat.zero_le _

theorem Capped.step_skip (hs : Capped s) (hstep : s.sizeStep (.skip i n) = .ok s') :
    Capped s' := by
  rcases on_eq_ok hstep with rfl | ⟨b, h', b', hb, hskip, rfl⟩
  · exact hs
  · exact hs.set ((size_skip hskip).trans (hs.size_le hb)) i h'

/-- What gets by the check of `Add` is within the cap, also when the sum has wrapped around. -/
theorem Capped.step_add {arg : Bytes} (hs : Capped s)
    (hstep : s.sizeStep (.add i arg) = .ok s') : Capped s' := by
  rcases on_eq_ok hstep with rfl | ⟨b, h', b', hb, hadd, rfl⟩
  · exact hs
  · obtain ⟨⟨added, h₁, b₁⟩, hadd, heq⟩ := bind_eq_ok hadd
    cases heq
    refine hs.set ?_ i _
    by_cases hle : (b.size + arg.bytes.length) % 2 ^ 64 ≤ maxSize
    · rw [(add_eq_ok hle hadd).2]
      exact hle
    · rw [Buffer.add_refused hle] at hadd
      cases hadd
      exact hs.size_le hb

theorem refuses_iff {bytes : List UInt8} (hb : b.size ≤ maxSize) (hlt : bytes.length < 2 ^ 64) :
    Refuses s b bytes ↔ b.size + bytes.length < 2 ^ 64 := by
  have hmax : maxSize < 2 ^ 32 := by decide
  constructor
  · intro h
    by_contra hge
    -- the sum that has wrapped around gets by the check
    have hle : (b.size + bytes.length) % 2 ^ 64 ≤ maxSize := by omega
    obtain ⟨h', b', hadd⟩ := h.1.mpr (by omega)
    cases (add_eq_ok hle hadd).1
  · intro hsum
    have hmod : (b.size + bytes.length) % 2 ^ 64 = b.size + bytes.length := Nat.mod_eq_of_lt hsum
    by_cases hle : b.size + bytes.length ≤ maxSize
    · have hnot : ∀ h' b', b.add s.heap bytes ≠ .ok (false, h', b') := fun h' b' hadd => by
        cases (add_eq_ok (hmod.le.trans hle) hadd).1
      refine ⟨⟨fun ⟨h', b', hadd⟩ => absurd hadd (hnot h' b'), fun hgt => ?_⟩,
        fun h' b' hadd => absurd hadd (hnot h' b')⟩
      exact absurd hle (Nat.not_le.mpr hgt)
    · have hadd := Buffer.add_refused (h := s.heap) (hmod ▸ hle)
      refine ⟨⟨fun _ => Nat.not_le.mp hle, fun _ => ⟨_, _, hadd⟩⟩, fun h' b' hadd' => ?_⟩
      rw [hadd] at hadd'
      cases hadd'
      exact ⟨rfl, rfl⟩

/-- `Append` of two buffers within the cap keeps it exactly when the sum is within it. -/
theorem Capped.append_iff {a : Buffer} (hs : Capped s) (hij : i ≠ j) (ha : s.buffers[i]? = some a)
    (hb : s.buffers[j]? = some b) (hstep : s.sizeStep (.append i j) = .ok s') :
    Capped s' ↔ a.size + b.size ≤ maxSize := by
  have hmax : maxSize < 2 ^ 32 := by decide
  have hale := hs.size_le ha
  have hble := hs.size_le hb
  rw [System.sizeStep, System.step, ha, hb] at hstep
  simp only [if_neg hij] at hstep
  obtain ⟨⟨h', a', b'⟩, happend, heq⟩ := bind_eq_ok hstep
  cases heq
  obtain ⟨hsize, hzero⟩ := size_append (by omega) happend
  rw [Nat.mod_eq_of_lt (by omega)] at hsize
  constructor
  · intro hcap
    rw [← hsize]
    refine hcap a' (List.mem_iff_getElem?.mpr ⟨i, ?_⟩)
    rw [List.getElem?_set_ne hij.symm, List.getElem?_set_self (List.getElem?_eq_some_iff.mp ha).1]
  · intro hle
    exact (hs.set (hsize ▸ hle) i h').set (hzero.trans_le (Nat.zero_le _)) j h'

theorem Capped.append_same (hs : Capped s)
    (hsame : ∀ a b, s.buffers[i]? = some a → s.buffers[j]? = some b → i = j)
    (hstep : s.sizeStep (.append i j) = .ok s') : Capped s' := by
  rw [System.sizeStep, System.step] at hstep
  split at hstep
  case h_1 a b ha hb =>
    rw [if_pos (hsame a b ha hb)] at hstep
    cases hstep
    exact hs
  case h_2 =>
    cases hstep
    exact hs

/-- `Read` keeps the cap exactly when what `readv` delivers is within it. -/
theorem Capped.read_iff {r : ReadCall} (hs : Capped s) (hb : s.buffers[i]? = some b)
    (hstep : s.sizeStep (.read i r) = .ok s') :
    Capped s' ↔ b.size + r.delivered s.heap b ≤ maxSize := by
  have hmax : maxSize < 2 ^ 32 := by decide
  have hble := hs.size_le hb
  have hdel := delivered_lt r s.heap b
  rw [System.sizeStep, System.on, hb] at hstep
  obtain ⟨⟨h', b'⟩, hread, heq⟩ := bind_eq_ok hstep
  cases heq
  obtain ⟨⟨n, h₁, b₁⟩, hread, heq⟩ := bind_eq_ok hread
  cases heq
  have hsize := size_read (by omega) hread
  rw [Nat.mod_eq_of_lt (by omega)] at hsize
  rw [← hsize]
  exact ⟨fun hcap => hcap.of_set hb, fun hle => hs.set hle i _⟩

/-- **A call on buffers within the cap.** -/
theorem keeps_iff {call : SizeCall} (hs : Capped s) : Keeps s call ↔ Fits s call := by
  cases call with
  | new => exact ⟨fun _ => trivial, fun _ => ⟨nofun, fun s' => hs.step_new⟩⟩
  | skip i n => exact ⟨fun _ => trivial, fun _ => ⟨nofun, fun s' => hs.step_skip⟩⟩
  | add i arg =>
      constructor
      · intro hkeeps b hb
        exact (refuses_iff (hs.size_le hb) arg.lt).mp (hkeeps.1 i arg b rfl hb)
      · intro hfits
        refine ⟨?_, fun s' => hs.step_add⟩
        rintro i arg b ⟨⟩ hb
        exact (refuses_iff (hs.size_le hb) arg.lt).mpr (hfits b hb)
  | append i j =>
      constructor
      · intro hkeeps a b s' hij ha hb hstep
        exact (hs.append_iff hij ha hb hstep).mp (hkeeps.2 s' hstep)
      · intro hfits
        refine ⟨nofun, fun s' hstep => ?_⟩
        by_cases hboth : ∃ a b, s.buffers[i]? = some a ∧ s.buffers[j]? = some b ∧ i ≠ j
        · obtain ⟨a, b, ha, hb, hij⟩ := hboth
          exact (hs.append_iff hij ha hb hstep).mpr (hfits a b s' hij ha hb hstep)
        · refine hs.append_same (fun a b ha hb => ?_) hstep
          by_contra hij
          exact hboth ⟨a, b, ha, hb, hij⟩
  | read i r =>
      constructor
      · intro hkeeps b s' hb hstep
        exact (hs.read_iff hb hstep).mp (hkeeps.2 s' hstep)
      · intro hfits
        refine ⟨nofun, fun s' hstep => ?_⟩
        cases hb : s.buffers[i]? with
        | none =>
            rcases on_eq_ok hstep with rfl | ⟨b, h', b', hb', -⟩
            · exact hs
            · rw [hb] at hb'
              cases hb'
        | some b => exact (hs.read_iff hb hstep).mpr (hfits b s' hb hstep)

/-! ## Whole programs -/

/-- **The cap is kept by exactly the programs whose calls fit.** -/
theorem keeps_iff_fits (calls : List SizeCall) :
    Meets System.sizeStep Keeps System.init calls ↔
      Meets System.sizeStep Fits System.init calls := by
  refine meets_congr Capped ?_ ?_ ?_
  · intro s call hs
    exact keeps_iff hs
  · intro s call s' hs hfits hstep
    exact ((keeps_iff hs).mpr hfits).2 s' hstep
  · exact capped_init

/-- `n` zero bytes. -/
def Bytes.zeros (n : ℕ) (h : n < 2 ^ 64) : Bytes := ⟨List.replicate n 0, by simpa using h⟩

/-- The first bytes of a buffer get a block of their own. -/
theorem add_fresh {l : CacheList} {bytes : List UInt8} (hlive : h.live l.write = true)
    (hnone : h.cache l.write = none) (hle : bytes.length ≤ maxSize) :
    ∃ c, Buffer.add h ⟨l, 0⟩ bytes = .ok (true, h.withCache l.write c, ⟨l, bytes.length⟩) := by
  have hmod : (0 + bytes.length) % 2 ^ 64 = bytes.length := by
    rw [Nat.zero_add, Nat.mod_eq_of_lt (hle.trans_lt (by decide))]
  have hfits : roundUp bytes.length ≤ ptrdiffMax := roundUp_le (hle.trans (by decide))
  let block : Cache := ⟨List.replicate (roundUp bytes.length) 0, 0, roundUp bytes.length, 0⟩
  have hv : block.Valid := Cache.valid_new hfits
  have hroom : bytes.length ≤ block.writeableSize := by
    rw [hv.writeableSize_eq]
    exact le_roundUp _
  obtain ⟨c, hc, -, -⟩ := Cache.append_spec hv hroom
  have hcheck : l.checkSize h bytes.length = .ok (h.withCache l.write block, l) := by
    rw [CacheList.checkSize, Heap.getCache_of_live hlive, hnone, ok_bind]
    simp only [CacheList.resetCache, Cache.new_eq hfits, ok_bind, Heap.setCache_of_live hlive]
    rfl
  have hblock : (h.withCache l.write block).block l.write = .ok block :=
    Heap.block_of_cache hlive (Function.update_self _ _ _)
  have hset : (h.withCache l.write block).setCache l.write c = .ok (h.withCache l.write c) := by
    have hlive' : (h.withCache l.write block).live l.write = true := hlive
    rw [Heap.setCache_of_live hlive']
    simp only [Heap.withCache, Function.update_idem]
  refine ⟨c, ?_⟩
  rw [Buffer.add, if_neg (Nat.not_lt.mpr (hmod.le.trans hle))]
  simp only [hcheck, ok_bind, hblock, hc, hset, hmod]
  rfl

/-- Two buffers of `n` bytes each, the second one appended to the first. -/
def doubling (n : ℕ) (h : n < 2 ^ 64) : List SizeCall :=
  [.new, .new, .add 0 (.zeros n h), .add 1 (.zeros n h), .append 0 1]

theorem run_doubling {n : ℕ} (hn : 0 < n) (hle : n ≤ maxSize) (h : n < 2 ^ 64) :
    ∃ s, run System.sizeStep System.init (doubling n h) = .ok s ∧
      s.buffers.map Buffer.size = [(n + n) % 2 ^ 64, 0] := by
  let l₀ : CacheList := ⟨0, 0, 0, 1⟩
  let l₁ : CacheList := ⟨1, 1, 1, 1⟩
  let h₂ : Heap := (Buffer.new (Buffer.new Heap.init).1).1
  have hlen : (Bytes.zeros n h).bytes.length = n := List.length_replicate
  have hle' : (Bytes.zeros n h).bytes.length ≤ maxSize := hlen.trans_le hle
  have hlive₀ : h₂.live l₀.write = true := rfl
  have hnone₀ : h₂.cache l₀.write = none := rfl
  obtain ⟨c₀, hadd₀⟩ := add_fresh hlive₀ hnone₀ hle'
  have hlive₁ : (h₂.withCache l₀.write c₀).live l₁.write = true := rfl
  have hnone₁ : (h₂.withCache l₀.write c₀).cache l₁.write = none := rfl
  obtain ⟨c₁, hadd₁⟩ := add_fresh hlive₁ hnone₁ hle'
  obtain ⟨h₅, l, o, hchain⟩ : ∃ h₅ l o, l₀.append ((h₂.withCache l₀.write c₀).withCache l₁.write c₁)
      l₁ = .ok (h₅, l, o) := ⟨_, _, _, rfl⟩
  rw [hlen] at hadd₀ hadd₁
  have hstep₀ : System.sizeStep ⟨h₂, [⟨l₀, 0⟩, ⟨l₁, 0⟩]⟩ (.add 0 (.zeros n h)) =
      .ok ⟨h₂.withCache l₀.write c₀, [⟨l₀, n⟩, ⟨l₁, 0⟩]⟩ := by
    simp [System.sizeStep, System.on, hadd₀]
  have hstep₁ : System.sizeStep ⟨h₂.withCache l₀.write c₀, [⟨l₀, n⟩, ⟨l₁, 0⟩]⟩
      (.add 1 (.zeros n h)) =
      .ok ⟨(h₂.withCache l₀.write c₀).withCache l₁.write c₁, [⟨l₀, n⟩, ⟨l₁, n⟩]⟩ := by
    simp [System.sizeStep, System.on, hadd₁]
  have hstep₂ : System.sizeStep
      ⟨(h₂.withCache l₀.write c₀).withCache l₁.write c₁, [⟨l₀, n⟩, ⟨l₁, n⟩]⟩ (.append 0 1) =
      .ok ⟨h₅, [⟨l, (n + n) % 2 ^ 64⟩, ⟨o, 0⟩]⟩ := by
    simp [System.sizeStep, System.step, Buffer.append, hn.ne', hchain]
  refine ⟨⟨h₅, [⟨l, (n + n) % 2 ^ 64⟩, ⟨o, 0⟩]⟩, ?_, rfl⟩
  change run System.sizeStep ⟨h₂, [⟨l₀, 0⟩, ⟨l₁, 0⟩]⟩ _ = _
  rw [run_cons_ok hstep₀, run_cons_ok hstep₁, run_cons_ok hstep₂]
  rfl

/-- **Two buffers of `2 ^ 31` bytes** are joined to one of `2 ^ 32`. -/
theorem not_keeps_doubling :
    ¬ Meets System.sizeStep Keeps System.init (doubling (2 ^ 31) (by decide)) := by
  intro hmeets
  obtain ⟨s, hrun, hsizes⟩ := run_doubling (n := 2 ^ 31) (by decide) (by decide) (by decide)
  have hcap : Capped s := invariant Capped (fun s call s' _ hkeeps hstep => hkeeps.2 s' hstep)
    capped_init hmeets hrun
  have hmem : 2 ^ 32 ∈ s.buffers.map Buffer.size := by
    rw [hsizes]
    decide
  obtain ⟨b, hb, hsize⟩ := List.mem_map.mp hmem
  have := hcap b hb
  rw [hsize] at this
  exact absurd this (by decide)

end Hare.Net
