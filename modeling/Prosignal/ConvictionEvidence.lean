import Prosignal.Contracts
import Prosignal.FloatArithmetic

/-!
# Independent evidence

`conviction.evidence`: the factors that support a name, counted by the
number of independent directions they span across the ranked universe.
-/

namespace Prosignal.ConvictionEvidence

open Contracts FloatArithmetic

/-- One measured factor of a theme, as a rank. -/
structure FactorMember where
  name : String
  rank : Option FloatVal
  deriving DecidableEq, Repr

/-- One theme of a name's score. -/
structure FactorScore where
  standardised : Option FloatVal := none
  weight : FloatVal := .fin 0
  contribution : Option FloatVal := none
  members : List FactorMember := []
  deriving DecidableEq, Repr

/-- One ranked name, as the gate reads it. -/
structure StockScore where
  ticker : Ticker
  sector : Option String := none
  factors : List (String × FactorScore) := []
  compositeRaw : FloatVal := .fin 0
  rank : ℤ := 0
  deriving DecidableEq, Repr

/-- A number that is present and finite. -/
def measured (x : Option FloatVal) : Option ℚ := x.bind FloatVal.toRat?

/-- What the array library computes. -/
structure Numpy where
  sqrt : FloatVal → FloatVal
  exp : FloatVal → FloatVal
  log : FloatVal → FloatVal
  /-- Eigenvalues of a symmetric matrix, and its eigenvectors as columns. -/
  eigh : List (List FloatVal) → List FloatVal × List (List FloatVal)

/-- Factor values across the universe, a row for each name. -/
structure Panel where
  names : List String
  rows : List (List FloatVal)
  /-- The second dimension of the array. -/
  cols : ℕ
  wide : ∀ row ∈ rows, row.length = cols

/-- Why evidence could not be counted. -/
inductive Uncounted where
  | noFactors
  | misaligned
  | noCoverage
  | noCorrelation
  | noVariance
  | emptyDistribution
  deriving DecidableEq, Repr

/-- The count of one candidate's evidence. -/
structure EvidenceCount where
  /-- Factors that point the candidate's way. -/
  nominal : ℕ
  /-- Independent directions they span. -/
  effective : FloatVal
  /-- Share of the evidence in each direction. -/
  distribution : List FloatVal := []
  names : List String := []
  weights : List FloatVal := []
  unavailable : Option Uncounted := none
  deriving DecidableEq, Repr

/-- Share of the evidence carried by its largest direction. -/
def EvidenceCount.concentration (c : EvidenceCount) : FloatVal :=
  (maxOf c.distribution).getD (.fin 1)

def EvidenceCount.testable (c : EvidenceCount) : Prop :=
  c.unavailable = none ∧ .fin 0 < c.effective

instance (c : EvidenceCount) : Decidable c.testable :=
  inferInstanceAs (Decidable (_ ∧ _))

section Count

variable (np : Numpy)

/-- The dot product of two vectors. -/
def dot (xs ys : List FloatVal) : FloatVal := sum (List.zipWith (· * ·) xs ys)

/-- An entry of a matrix. -/
def entry (m : List (List FloatVal)) (i j : ℕ) : FloatVal := (m.getD i []).getD j .nan

/-- A column of a matrix. -/
def column (m : List (List FloatVal)) (j : ℕ) : List FloatVal := m.map fun row => row.getD j .nan

/-- A square matrix from its entries. -/
def square (n : ℕ) (f : ℕ → ℕ → FloatVal) : List (List FloatVal) :=
  (List.range n).map fun i => (List.range n).map (f i)

/-- The correlation of two columns over the names that have both; thin,
constant and noisy pairs count as uncorrelated. -/
def pairCorr (a b : List FloatVal) : FloatVal :=
  let ok := (a.zip b).filter fun p => p.1.isFinite && p.2.isFinite
  let av := ok.map Prod.fst
  let bv := ok.map Prod.snd
  let sa := std np.sqrt av
  let sb := std np.sqrt bv
  if ok.length < 8 ∨ sa ≤ .fin 0 ∨ sb ≤ .fin 0 then .fin 0
  else
    let r := mean (ok.map fun p => (p.1 - mean av) * (p.2 - mean bv)) / (sa * sb)
    let clamped := FloatVal.max (.fin (-1)) (FloatVal.min (.fin 1) r)
    if ¬ r.isFinite ∨ clamped.abs < .fin (1 / 10) then .fin 0 else clamped

/-- `_corr`: the correlation matrix, computed for each pair on its own. -/
def corr (n : ℕ) (sub : List (List FloatVal)) : List (List FloatVal) :=
  square n fun i j =>
    if i = j then .fin 1
    else pairCorr np (column sub (min i j)) (column sub (max i j))

/-- `_nearest_psd`: negative eigenvalues clipped, the diagonal made one. -/
def nearestPsd (n : ℕ) (matrix : List (List FloatVal)) : List (List FloatVal) :=
  let eigen := np.eigh matrix
  let vals := eigen.1.map (FloatVal.clipBelow (.fin 0))
  let vecs := eigen.2
  let fixed := square n fun i j =>
    sum ((List.range n).map fun k => entry vecs i k * vals.getD k .nan * entry vecs j k)
  let diag := (List.range n).map fun i =>
    np.sqrt (FloatVal.clipBelow (.fin (1 / 10 ^ 12)) (entry fixed i i))
  square n fun i j => entry fixed i j / (diag.getD i .nan * diag.getD j .nan)

/-- The evidence in each uncorrelated direction, as a share of the total. -/
def directions (n : ℕ) (matrix : List (List FloatVal)) (w : List FloatVal) (total : FloatVal) :
    List FloatVal :=
  let eigen := np.eigh matrix
  (List.range n).map fun k =>
    let proj := dot (column eigen.2 k) w
    FloatVal.clipBelow (.fin 0)
      (proj * proj * FloatVal.clipBelow (.fin 0) (eigen.1.getD k .nan) / total)

/-- The exponential of the entropy of a distribution. -/
def entropyCount (d : List FloatVal) : FloatVal :=
  let nz := d.filter fun x => .fin 0 < x
  np.exp (-sum (nz.map fun x => x * np.log x))

/-- Whether a factor supports the candidate and covers half the universe. -/
def keeps (weights : List FloatVal) (panel : Panel) (j : ℕ) : Bool :=
  let w := weights.getD j .nan
  let coverage : ℚ :=
    ((column panel.rows j).countP FloatVal.isFinite : ℚ) / (max panel.rows.length 1 : ℕ)
  .fin 0 < w && w.isFinite && 1 / 2 ≤ coverage

/-- `effective_independent_count` over the supporting evidence. -/
def effectiveIndependentCount (weights : List FloatVal) (panel : Panel) : EvidenceCount :=
  if weights = [] ∨ panel.rows = [] ∨ panel.cols = 0 then
    { nominal := 0, effective := .fin 0, unavailable := some .noFactors }
  else if panel.cols ≠ weights.length then
    { nominal := 0, effective := .fin 0, unavailable := some .misaligned }
  else
    let keep := (List.range panel.cols).filter (keeps weights panel)
    let w := keep.map fun j => weights.getD j .nan
    let names := keep.filterMap fun j => panel.names[j]?
    let nominal := keep.length
    if keep = [] then
      { nominal := 0, effective := .fin 0, unavailable := some .noCoverage }
    else if nominal = 1 then
      { nominal := 1, effective := .fin 1, distribution := [.fin 1], names := names, weights := w }
    else
      let sub := panel.rows.map fun row => keep.map fun j => row.getD j .nan
      let matrix := nearestPsd np nominal (corr np nominal sub)
      let total := dot w (matrix.map fun row => dot row w)
      if ¬ total.isFinite ∨ total ≤ .fin 0 then
        { nominal := nominal, effective := .fin 0, unavailable := some .noVariance }
      else
        let d := directions np nominal matrix w total
        let s := sum d
        if ¬ s.isFinite ∨ s ≤ .fin 0 then
          { nominal := nominal, effective := .fin 0, unavailable := some .emptyDistribution }
        else
          let shares := d.map (· / s)
          { nominal := nominal
            effective :=
              FloatVal.max (.fin 1) (FloatVal.min (.fin nominal) (entropyCount np shares))
            distribution := shares, names := names, weights := w }

end Count

/-- A panel with a row for each name and a column for each factor. -/
def tabulate (ranked : List StockScore) (names : List String)
    (cell : StockScore → String → FloatVal) : Panel where
  names := names
  rows := if names = [] then [] else ranked.map fun s => names.map (cell s)
  cols := names.length
  wide := by
    intro row hrow
    split at hrow
    · cases hrow
    · obtain ⟨s, -, rfl⟩ := List.mem_map.mp hrow
      exact List.length_map _

/-- The standardised value of a theme of a name. -/
def themeValue (s : StockScore) (k : String) : FloatVal :=
  (((s.factors.lookup k).bind fun f => measured f.standardised).map .fin).getD .nan

/-- Themes of the universe, in the order they first occur. -/
def themeNames (ranked : List StockScore) : List String :=
  (ranked.flatMap fun s => s.factors.map Prod.fst).eraseDups

/-- `theme_matrix`: standardised theme scores. -/
def themeMatrix (ranked : List StockScore) : Panel :=
  tabulate ranked (themeNames ranked) themeValue

/-- The members of all themes of a name. -/
def StockScore.members (s : StockScore) : List FactorMember :=
  s.factors.flatMap fun f => f.2.members

/-- The rank of a member, the last one recorded under its name. -/
def memberRank (s : StockScore) (name : String) : Option ℚ :=
  ((s.members.filter fun m => m.name = name).filterMap fun m => measured m.rank).getLast?

/-- `member_matrix`: individual factor ranks. -/
def memberMatrix (ranked : List StockScore) : Panel :=
  tabulate ranked (ranked.flatMap fun s => s.members.map FactorMember.name).eraseDups
    fun s name => ((memberRank s name).map .fin).getD .nan

/-- Both levels of the count for one candidate. -/
structure EvidenceProfile where
  themes : EvidenceCount
  members : EvidenceCount
  deriving DecidableEq, Repr

def EvidenceProfile.testable (p : EvidenceProfile) : Prop :=
  p.themes.testable ∧ p.members.testable

instance (p : EvidenceProfile) : Decidable p.testable := inferInstanceAs (Decidable (_ ∧ _))

/-- `evidence_for`: contributions weigh the themes, ranks the members, and
what is not measured weighs nothing. -/
def evidenceFor (np : Numpy) (score : StockScore) (ranked : List StockScore)
    (themePanel memberPanel : Option Panel) : EvidenceProfile :=
  let tp := themePanel.getD (themeMatrix ranked)
  let mp := memberPanel.getD (memberMatrix ranked)
  let tw := tp.names.map fun k =>
    .fin (((score.factors.lookup k).bind fun f => measured f.contribution).getD 0)
  let mw := mp.names.map fun name => .fin ((memberRank score name).getD 0)
  { themes := effectiveIndependentCount np tw tp
    members := effectiveIndependentCount np mw mp }

/-- The clamp of the count leaves a finite number whatever it is given. -/
theorem isFinite_clamp (n : ℕ) (x : FloatVal) :
    (FloatVal.max (.fin 1) (FloatVal.min (.fin n) x)).isFinite = true := by
  have hfin : ∀ q : ℚ, (FloatVal.max (.fin 1) (.fin q)).isFinite = true := by
    intro q
    rw [FloatVal.max]
    split <;> rfl
  cases x with
  | nan => exact hfin n
  | posInf => exact hfin n
  | negInf => rfl
  | fin q =>
    rw [FloatVal.min]
    split
    · exact hfin q
    · exact hfin n

/-- The largest of finitely many finite shares is finite. -/
theorem EvidenceCount.isFinite_concentration {c : EvidenceCount}
    (h : ∀ x ∈ c.distribution, x.isFinite = true) : c.concentration.isFinite = true := by
  rw [EvidenceCount.concentration]
  cases hmax : maxOf c.distribution with
  | none => rfl
  | some m => exact h m (mem_of_maxOf hmax)

/-- Shares of a finite positive sum are finite. -/
theorem isFinite_shares {d : List FloatVal} (hfinite : (sum d).isFinite = true)
    (hpos : ¬ sum d ≤ .fin 0) : ∀ x ∈ d.map (· / sum d), x.isFinite = true := by
  obtain ⟨s, hs⟩ := FloatVal.isFinite_iff.mp hfinite
  rw [hs] at hpos
  intro x hx
  obtain ⟨y, hy, rfl⟩ := List.mem_map.mp hx
  obtain ⟨q, rfl⟩ := FloatVal.isFinite_iff.mp (isFinite_of_sum hfinite y hy)
  have hne : s ≠ 0 := by
    intro hzero
    exact hpos (hzero ▸ FloatVal.fin_le_fin.mpr le_rfl)
  rw [hs, FloatVal.fin_div_fin hne]
  rfl

/-- What could be counted came out as finite numbers. -/
theorem isFinite_of_counted (np : Numpy) (weights : List FloatVal) (panel : Panel)
    (h : (effectiveIndependentCount np weights panel).unavailable = none) :
    (effectiveIndependentCount np weights panel).effective.isFinite = true ∧
      (effectiveIndependentCount np weights panel).concentration.isFinite = true := by
  revert h
  simp only [effectiveIndependentCount]
  split
  · intro h
    cases h
  split
  · intro h
    cases h
  split
  · intro h
    cases h
  split
  · intro _
    exact ⟨rfl, rfl⟩
  split
  · intro h
    cases h
  split
  · intro h
    cases h
  · rename_i hsum
    intro _
    have hfinite := not_not.mp (not_or.mp hsum).1
    exact ⟨isFinite_clamp _ _, EvidenceCount.isFinite_concentration
      (isFinite_shares hfinite (not_or.mp hsum).2)⟩

end Prosignal.ConvictionEvidence
