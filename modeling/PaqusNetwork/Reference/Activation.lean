import PaqusNetwork.Reference.Sample

namespace PaqusNetwork.Reference

open Effect

namespace Books

/-- The statement and the funds that a transaction of this signer can use at the height. -/
def active (books : Books) (height : Nat) (address : Address) : Option (Hash × Amount) :=
  books.accounts[address]?.bind fun account =>
    if statementHeight account < height then some (account.statement, available account height) else none

variable {books next : Books} {height : Nat} {transaction : SignedProtocolTransaction}

/-- Neither the active accounts nor the redeemable coins change. -/
structure Resting (height : Nat) (before after : Books) : Prop where
  active : ∀ address, after.active height address = before.active height address
  redeemable : ∀ coin, after.redeemable height coin = before.redeemable height coin

theorem Resting.refl (books : Books) : Resting height books books := ⟨fun _ => rfl, fun _ => rfl⟩

theorem Resting.trans {first second third : Books} (h : Resting height first second)
    (h' : Resting height second third) : Resting height first third :=
  ⟨fun address => (h'.active address).trans (h.active address),
    fun coin => (h'.redeemable coin).trans (h.redeemable coin)⟩

variable {signer : Address} {lastState : Hash} {amount : Amount} {inputs : List QCashCoinId}

end Books

end PaqusNetwork.Reference
