import DeviceCode.Main
import DeviceCode.Program.Builder
import DeviceCode.Proofs.CUnit.IntegerOperands
import DeviceCode.Proofs.CUnit.Payloads
import DeviceCode.Proofs.CUnit.PendingValues
import DeviceCode.Proofs.CUnit.TypeFlow
import DeviceCode.Proofs.Integers.Backends
import DeviceCode.Proofs.LinkedOperands
import DeviceCode.Proofs.Listing
import DeviceCode.Proofs.Machine.FieldAccess
import DeviceCode.Proofs.Machine.Limits
import DeviceCode.Proofs.Machine.Returns
import DeviceCode.Proofs.Registry.NativeCode
import DeviceCode.Proofs.Registry.Unfinished
import DeviceCode.Proofs.Registry.WideValues
import DeviceCode.Proofs.StaticRegion
import DeviceCode.Proofs.Substitution
import DeviceCode.Proofs.Subtypes
import DeviceCode.Proofs.Termination.Link
import DeviceCode.Proofs.TypeNames
import DeviceCode.Proofs.Wire.RoundTrip
