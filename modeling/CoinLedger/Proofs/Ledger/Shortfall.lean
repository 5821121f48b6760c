import CoinLedger.Proofs.Funding.Failures
import CoinLedger.Proofs.Ledger.BuildTransaction
import CoinLedger.Proofs.Ledger.Failures
import CoinLedger.Proofs.Ledger.Legible

/-! # What is reported of missing funds

Building for a wallet derives a script for the change, lists coins, derives their keys and finishes a
builder.  The errors of the first steps are about the wallet or its keys, or they are answers of the
service that watches the chain (`StepFault`).  The answers can be any errors.  If none of them is the
one about funds, that error is the one of the builder (`run_buildTransaction_insufficientFunds`).

Without explicit inputs the builder has recipients, and all coins of the wallet are offered to it, in
some order.  Then what is reported are the cost and the value of all of them, and the value is less.
`reported_of_insufficientFunds` says so, and what is reported of any builder.
`not_realShortfall_of_dustChange` is a builder without recipients that reports a shortfall of funds that
it has. -/

namespace CoinLedger

open Ledger Key

namespace Ledger

/-! ### Errors that are found before funds are -/

/-- The errors of deriving scripts and keys, if this service watches the chain. -/
inductive StepFault (chain : Option ChainTable) : Error → Prop where
  | wallet (id : String) : StepFault chain (.walletNotFound id)
  | index (id : String) : StepFault chain (.derivationIndexOverflow id)
  | key {e : Error} (h : KeyFault e) : StepFault chain e
  | service {e : Error} (h : ServiceGives chain e) : StepFault chain e

theorem StepFault.ne_insufficientFunds {chain : Option ChainTable} {e : Error} (h : StepFault chain e)
    {needed available : UInt64} (hgives : ¬ ServiceGives chain (.insufficientFunds needed available)) :
    e ≠ .insufficientFunds needed available := by
  rintro rfl
  cases h with
  | key h => cases h
  | service h => exact hgives h

section

variable {l l' : Ledger} {walletId : String} {e : Error}

theorem stepFault_of_requireWallet (hs : Sound Wallet l.store)
    (h : requireWallet l.store walletId = .error e) : StepFault l.chain e := by
  rw [requireWallet_eq hs] at h
  split at h
  · cases h
  · exact Except.error.inj h ▸ .wallet walletId

theorem stepFault_of_nextOf (hs : Sound Wallet l.store) (h : l.nextOf walletId = .error e) :
    StepFault l.chain e := by
  rcases bind_error h with hwallet | ⟨w, -, h⟩
  · exact stepFault_of_requireWallet hs hwallet
  rcases bind_error h with hindex | ⟨index, -, h⟩
  · unfold nextIndex at hindex
    split at hindex
    · cases hindex
    · exact Except.error.inj hindex ▸ .index walletId
  rcases bind_error h with hmaster | ⟨master, -, h⟩
  · unfold masterOf at hmaster
    split at hmaster
    · cases hmaster
    · exact .key (keyFault_of_masterKey hmaster)
  rcases bind_error h with hkey | ⟨key, -, h⟩
  · exact .key (keyFault_of_derive hkey)
  · cases h

theorem stepFault_of_deriveScript (hs : WellFormed l.store)
    (h : l.run (deriveScript walletId) = (.error e, l')) : StepFault l.chain e := by
  cases hnext : l.nextOf walletId with
  | error e' =>
      have hrun := (run_nextScript hs.sound walletId).1
      rw [hnext] at hrun
      rcases hfirst : l.run (nextScript walletId) with ⟨_, l₁⟩
      rw [hfirst] at hrun
      obtain rfl := hrun
      unfold deriveScript at h
      rw [run_bind, hfirst] at h
      obtain rfl : e' = e := Except.error.inj (congrArg Prod.fst h)
      exact stepFault_of_nextOf hs.sound hnext
  | ok next =>
      obtain ⟨l₁, -, hchain, hrun⟩ := exists_run_deriveScript_eq hs hnext
      rw [hrun, run_bind] at h
      rcases htrack : l₁.run (trackOnChain walletId next.script) with ⟨e' | _, l₂⟩
      · rw [htrack] at h
        obtain rfl : e' = e := Except.error.inj (congrArg Prod.fst h)
        obtain ⟨table, htable, hrefused⟩ :=
          run_trackOnChain_eq_error_iff.1 (congrArg Prod.fst htrack)
        rw [← hchain, htable]
        exact .service (.track hrefused)
      · rw [htrack] at h
        cases h

theorem keyFault_of_addGroupKeys {master : ExtendedKey} :
    ∀ {groups : List CoinGroup} {keys : SigningKeys},
      addGroupKeys master keys groups = .error e → KeyFault e
  | [], _, h => by cases h
  | g :: groups, keys, h => by
      rw [addGroupKeys, List.foldlM_cons] at h
      rcases bind_error h with hkey | ⟨keys', -, h⟩
      · exact keyFault_of_derive (map_error hkey)
      · exact keyFault_of_addGroupKeys h

end

/-! ### Errors about funds -/

section

variable {order : CoinOrder} {master : ExtendedKey} {groups : List CoinGroup} {p : Payout}

/-- Once the keys are derived, paying from all coins fails as the builder does that offers them. -/
theorem payFromAll_eq_error_iff (hnodup : ((groupCoins groups).map (·.outpoint)).Nodup)
    {keys : SigningKeys} (hkeys : addGroupKeys master .empty groups = .ok keys) {e : Error} :
    payFromAll order master groups p = .error e ↔
      (p.offer order (groupCoins groups)).finish = .error e := by
  rw [payFromAll, hkeys, ok_bind, lastByOutpoint_eq_self hnodup]
  exact TxBuilder.finish_withKeys_eq_error_iff (p.offer order (groupCoins groups)) keys

theorem finish_offer_of_payFromAll (hnodup : ((groupCoins groups).map (·.outpoint)).Nodup)
    {needed available : UInt64}
    (h : payFromAll order master groups p = .error (.insufficientFunds needed available)) :
    (p.offer order (groupCoins groups)).finish = .error (.insufficientFunds needed available) := by
  cases hkeys : addGroupKeys master .empty groups with
  | error e =>
      rw [payFromAll, hkeys] at h
      obtain rfl := Except.error.inj h
      cases keyFault_of_addGroupKeys hkeys
  | ok keys => exact (payFromAll_eq_error_iff hnodup hkeys).1 h

end

/-- Without explicit inputs, an error about funds that is no answer of the service is the one of the
builder that offers all coins that are listed, with the script that was derived for the change. -/
theorem run_buildTransaction_insufficientFunds {l l' : Ledger} (hl : Reachable l)
    {needed available : UInt64}
    (hgives : ¬ ServiceGives l.chain (.insufficientFunds needed available)) {walletId : String}
    {outputs : List TxOut} {feeRate : FeeRate} {order : CoinOrder}
    (h : l.run (buildTransaction walletId outputs feeRate [] order) =
      (.error (.insufficientFunds needed available), l')) :
    outputs ≠ [] ∧ ∃ (next : NextScript) (groups : List CoinGroup),
      l.nextOf walletId = .ok next ∧ commit l.store (next.batch walletId) = .ok l'.store ∧
      spendableGroups l'.store walletId = .ok groups ∧
      (Payout.offer ⟨outputs, next.script, feeRate⟩ order (groupCoins groups)).finish =
        .error (.insufficientFunds needed available) := by
  have hs := hl.wellFormed
  cases hrequire : requireWallet l.store walletId with
  | error e =>
      unfold buildTransaction at h
      rw [run_bind, run_read, hrequire] at h
      obtain rfl := Except.error.inj (congrArg Prod.fst h)
      exact absurd rfl ((stepFault_of_requireWallet hs.sound hrequire).ne_insufficientFunds hgives)
  | ok w =>
      have hw := record?_of_requireWallet hs.sound hrequire
      obtain rfl : w.id = walletId := hs.sound.key_eq hw
      have houtputs : outputs ≠ [] := by
        rintro rfl
        unfold buildTransaction at h
        rw [run_bind, run_read, hrequire] at h
        cases h
      refine ⟨houtputs, ?_⟩
      rcases hderive : l.run (deriveScript w.id) with ⟨e | script, l₁⟩
      · rw [run_buildTransaction_error hl hw hderive outputs feeRate (.inl houtputs) order] at h
        obtain rfl := Except.error.inj (congrArg Prod.fst h)
        exact absurd rfl ((stepFault_of_deriveScript hs hderive).ne_insufficientFunds hgives)
      · obtain ⟨l₂, next, groups, master, rfl, -, hprepared, hrun⟩ :=
          exists_run_buildTransaction_derived hl hw hderive outputs feeRate [] (.inl houtputs) order
        rw [hrun, if_pos List.isEmpty_nil] at h
        obtain ⟨hpaid, rfl⟩ := Prod.mk.inj h
        have hpaid := map_error (map_error hpaid)
        exact ⟨next, groups, hprepared.derived, hprepared.committed, hprepared.listed,
          finish_offer_of_payFromAll hprepared.offered.nodup hpaid⟩

end Ledger

/-- **What is reported of missing funds.**  Let the sums of a builder that chooses the largest coins
first fit into 64 bits.  There are two ways in which it reports that funds are missing, and it reports
so in these two only.  Either no number of the first coins pays for the recipients and the fee; then
the amounts are the cost and the value of all coins that are offered, and the value is less.  Or there
are no recipients, the coins that must be spent pay for the fee, with others or without, and no output
comes of what is left; then the amounts are the value of the chosen coins, and their fee without an
output with the least value of one.  In the second way the shortfall is real just if the other coins
are worth nothing and the chosen ones no more than their fee and an amount too small for an output.

Building for a wallet of a reachable ledger, without explicit inputs, reports missing funds in the
first way only, of the coins that are listed once the script for the change is derived, unless the
service that watches the chain answers with this error.  All this holds in whatever order the coins
are offered and however those of one value are sorted. -/
theorem reported_of_insufficientFunds {b : TxBuilder} {sort : FallingSort}
    (hselector : b.selector = largestFirstBy sort) (hfits : b.SumsFit (sort b.maySpend)) {l : Ledger}
    (hl : Reachable l) (needed available : UInt64) :
    (b.finish = .error (.insufficientFunds needed available) ↔
      b.Payable ∧ (b.OfferShort (sort b.maySpend) needed available ∨
        ∃ k, b.NothingPaid (sort b.maySpend) k needed available)) ∧
    (∀ k, b.NothingPaid (sort b.maySpend) k needed available → (b.RealShortfall needed available ↔
      coinsValue (((sort b.maySpend).drop k).map (·.utxo)) = 0 ∧
        coinsValue ((b.mustSpend ++ (sort b.maySpend).take k).map (·.utxo)) ≤
          (wholeSat (b.feeWithout (b.mustSpend ++ (sort b.maySpend).take k))).toNat +
            dustLimit.toNat)) ∧
    (¬ ServiceGives l.chain (.insufficientFunds needed available) →
      ∀ (l' : Ledger) (walletId : String) (outputs : List TxOut) (feeRate : FeeRate)
        (order : CoinOrder),
        l.run (buildTransaction walletId outputs feeRate [] order) =
          (.error (.insufficientFunds needed available), l') →
        ∃ (next : NextScript) (groups : List CoinGroup) (offer : TxBuilder),
          l.nextOf walletId = .ok next ∧ commit l.store (next.batch walletId) = .ok l'.store ∧
          spendableGroups l'.store walletId = .ok groups ∧
          offer = Payout.offer ⟨outputs, next.script, feeRate⟩ order (groupCoins groups) ∧
          (offer.SumsFit (order.sort offer.maySpend) →
            offer.OfferShort (order.sort offer.maySpend) needed available)) := by
  have hchooses := TxBuilder.choosesIn_of_selector hselector
  refine ⟨TxBuilder.finish_eq_insufficientFunds_iff hchooses hfits,
    fun k hnothing => hnothing.realShortfall_iff hchooses.fallingOrder,
    fun hgives l' walletId outputs feeRate order h => ?_⟩
  obtain ⟨houtputs, next, groups, hnext, hcommit, hgroups, hfinish⟩ :=
    run_buildTransaction_insufficientFunds hl hgives h
  refine ⟨next, groups, _, hnext, hcommit, hgroups, rfl, fun hfits => ?_⟩
  obtain ⟨-, hshort | ⟨k, hnothing⟩⟩ :=
    (TxBuilder.finish_eq_insufficientFunds_iff (TxBuilder.choosesIn_of_selector rfl) hfits).1 hfinish
  · exact hshort
  · exact absurd hnothing.recipients houtputs

/-- A builder that pays nobody and must spend a coin of 640. -/
def dustChange : TxBuilder :=
  { recipients := [], mustSpend := [.ofKeyHash ⟨⟨.zero, 0⟩, ⟨640, ⟨0 :: 20 :: List.replicate 20 9⟩⟩⟩],
    changeScript := some ⟨0 :: 20 :: List.replicate 20 2⟩ }

theorem sumsFit_dustChange : dustChange.SumsFit [] := by
  have hcost : dustChange.demand.cost [] + dustLimit.toNat + 1 < UInt64.size := by decide +kernel
  refine ⟨by decide, ⟨by decide, fun k _ _ => ?_⟩, fun _ k _ _ => ?_⟩
  · rw [List.take_nil]
    omega
  · rw [List.take_nil]
    exact hcost

/-- The fee without an output is 79, and with the change it is 110. -/
theorem nothingPaid_dustChange : dustChange.NothingPaid [] 0 626 640 where
  recipients := rfl
  le_length := Nat.le_refl _
  covers := by decide +kernel
  least j hj := absurd hj (Nat.not_lt_zero j)
  value := by decide
  cost := by decide +kernel
  noChange := by
    rintro script ⟨⟩
    decide +kernel

theorem finish_dustChange : dustChange.finish = .error (.insufficientFunds 626 640) := by
  have hchooses : dustChange.ChoosesIn (FallingSort.byValue []) := TxBuilder.choosesIn_of_selector rfl
  rw [FallingSort.apply_nil] at hchooses
  exact (TxBuilder.finish_eq_insufficientFunds_iff hchooses sumsFit_dustChange).2
    ⟨⟨.inr (List.cons_ne_nil _ _), nofun⟩, .inr ⟨0, nothingPaid_dustChange⟩⟩

/-- The builder that is to pay 50000 and is offered one coin of 5600. -/
def fiftyThousand (script : Script) : TxBuilder :=
  Payout.offer ⟨[⟨50000, ⟨[81]⟩⟩], script, .minimumRelay⟩ .listed [paidCoin script 5600]

theorem sort_fiftyThousand (sort : FallingSort) (script : Script) :
    sort (fiftyThousand script).maySpend = (fiftyThousand script).maySpend :=
  sort.apply_singleton (.ofKeyHash (paidCoin script 5600).utxo)

/-- Each number of coins costs 50000 and a fee. -/
theorem cost_fiftyThousand (script : Script) {k : Nat}
    (hk : k ≤ (fiftyThousand script).maySpend.length) :
    50000 ≤ (fiftyThousand script).demand.cost ((fiftyThousand script).maySpend.take k) ∧
      (fiftyThousand script).demand.cost ((fiftyThousand script).maySpend.take k) <
        UInt64.size := by
  have hnone : (sumAmounts [50000]).toNat + (wholeSat (FeeRate.minimumRelay.feeFor headerWeight +
      FeeRate.minimumRelay.feeFor (TxOut.weight ⟨50000, ⟨[81]⟩⟩))).toNat < UInt64.size := by
    decide +kernel
  have hone : (sumAmounts [50000]).toNat + (wholeSat (FeeRate.minimumRelay.feeFor headerWeight +
      FeeRate.minimumRelay.feeFor (TxOut.weight ⟨50000, ⟨[81]⟩⟩) +
        FeeRate.minimumRelay.feeFor (inputWeight + keyHashSatisfactionWeight))).toNat <
      UInt64.size := by
    decide +kernel
  refine ⟨Nat.le_add_right 50000 _, ?_⟩
  match k, hk with
  | 0, _ => exact hnone
  | 1, _ => exact hone

theorem payable_fiftyThousand (script : Script) : (fiftyThousand script).Payable := by
  refine ⟨.inl (List.cons_ne_nil _ _), fun o ho => ?_⟩
  obtain rfl : o = ⟨50000, ⟨[81]⟩⟩ := List.mem_singleton.1 ho
  decide

theorem sumsFit_fiftyThousand (script : Script) :
    (fiftyThousand script).SumsFit (fiftyThousand script).maySpend :=
  ⟨(by decide : 50000 < UInt64.size),
    ⟨(by decide : 5600 < UInt64.size), fun _ hk _ => (cost_fiftyThousand script hk).2⟩,
    fun hnone => absurd hnone (List.cons_ne_nil _ _)⟩

theorem offerShort_fiftyThousand (script : Script) :
    (fiftyThousand script).OfferShort (fiftyThousand script).maySpend 50089 5600 := by
  refine ⟨⟨rfl, by decide⟩, fun k hk hcovers => ?_, ?_⟩
  · have hcost := (cost_fiftyThousand script hk).1
    have hworth := (fiftyThousand script).demand.worth_take_le (fiftyThousand script).maySpend k
    have hall : (fiftyThousand script).demand.worth (fiftyThousand script).maySpend = 5600 := rfl
    rw [Demand.Covers] at hcovers
    omega
  · exact (by decide +kernel : 50089 = 50000 + (wholeSat (FeeRate.minimumRelay.feeFor headerWeight +
      FeeRate.minimumRelay.feeFor (TxOut.weight ⟨50000, ⟨[81]⟩⟩) +
        FeeRate.minimumRelay.feeFor (inputWeight + keyHashSatisfactionWeight))).toNat)

/-- A wallet with a coin of 5600 cannot pay 50000, and its coin falls short. -/
theorem reported_of_paidWallet :
    ∃ (l l' : Ledger) (w : Wallet) (next : NextScript) (groups : List CoinGroup), Reachable l ∧
      ¬ ServiceGives l.chain (.insufficientFunds 50089 5600) ∧
      l.run (buildTransaction w.id [⟨50000, ⟨[81]⟩⟩] .minimumRelay []) =
        (.error (.insufficientFunds 50089 5600), l') ∧
      spendableGroups l'.store w.id = .ok groups ∧
      (Payout.offer ⟨[⟨50000, ⟨[81]⟩⟩], next.script, .minimumRelay⟩ .listed
        (groupCoins groups)).OfferShort (byValueDown ((groupCoins groups).map fun c =>
          .ofKeyHash c.utxo)) 50089 5600 := by
  obtain ⟨l, w, next, h⟩ := exists_paidWallet 5600
  have hgives : ¬ ServiceGives l.chain (.insufficientFunds 50089 5600) := by
    rw [h.unwatched]
    nofun
  have hsort := sort_fiftyThousand .byValue next.script
  have hfits := sumsFit_fiftyThousand next.script
  have hshort := offerShort_fiftyThousand next.script
  rw [← hsort] at hfits hshort
  obtain ⟨hbuilder, -, hledger⟩ := reported_of_insufficientFunds (b := fiftyThousand next.script) rfl
    hfits h.reachable 50089 5600
  have hfinish := hbuilder.2 ⟨payable_fiftyThousand next.script, .inl hshort⟩
  obtain ⟨l₁, hderive⟩ := exists_run_deriveScript_eq_ok h.reachable.wellFormed h.unwatched h.derivable
  obtain ⟨l', next', groups, master, -, -, hprepared, hrun⟩ := exists_run_buildTransaction_derived
    h.reachable h.stored hderive [⟨50000, ⟨[81]⟩⟩] .minimumRelay [] (.inl (List.cons_ne_nil _ _))
    .listed
  obtain rfl : next = next' := Except.ok.inj (h.derivable.symm.trans hprepared.derived)
  have hcoins := h.groupCoins_eq hprepared
  -- paying fails as the builder does
  obtain ⟨keys, hkeys⟩ := hprepared.offered.groups.exists_addGroupKeys_eq_ok
    (h.keyed.prepared h.reachable hprepared) hprepared.unlocked .empty
  have hpaid : payFromAll .listed master groups
      ⟨[⟨50000, ⟨[81]⟩⟩], next.script, .minimumRelay⟩ =
        .error (.insufficientFunds 50089 5600) := by
    rw [payFromAll_eq_error_iff hprepared.offered.nodup hkeys, hcoins]
    exact hfinish
  rw [if_pos List.isEmpty_nil, hpaid] at hrun
  obtain ⟨next'', groups', offer, hnext'', -, hgroups', rfl, hshort⟩ :=
    hledger hgives l' w.id _ _ .listed hrun
  obtain rfl : next = next'' := Except.ok.inj (h.derivable.symm.trans hnext'')
  obtain rfl : groups = groups' := Except.ok.inj (hprepared.listed.symm.trans hgroups')
  rw [hcoins] at hshort
  refine ⟨l, l', w, next, groups, h.reachable, hgives, hrun, hgroups', ?_⟩
  rw [hcoins]
  exact hshort hfits

/-- More is available than what is reported to be needed. -/
theorem not_realShortfall_of_dustChange : dustChange.selector = largestFirst ∧
    dustChange.SumsFit (byValueDown dustChange.maySpend) ∧
    dustChange.finish = .error (.insufficientFunds 626 640) ∧ ¬ dustChange.RealShortfall 626 640 := by
  have hsort : byValueDown dustChange.maySpend = [] := FallingSort.apply_nil .byValue
  refine ⟨rfl, ?_, finish_dustChange, fun h => absurd h.short (by decide : ¬ (640 : UInt64) < 626)⟩
  rw [hsort]
  exact sumsFit_dustChange

end CoinLedger
