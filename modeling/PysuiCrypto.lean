import PysuiCrypto.AddressSeed
import PysuiCrypto.Authenticator
import PysuiCrypto.Byzantine
import PysuiCrypto.Commitment
import PysuiCrypto.Consistency
import PysuiCrypto.DecryptSafety
import PysuiCrypto.DemAuthentication
import PysuiCrypto.Encrypt
import PysuiCrypto.KeyVerification
import PysuiCrypto.Login
import PysuiCrypto.MasterKeys
import PysuiCrypto.NonceKey
import PysuiCrypto.PolynomialSpec
import PysuiCrypto.Reconstruction
import PysuiCrypto.Rijndael
import PysuiCrypto.SessionMessage
import PysuiCrypto.TssSecrecy
import PysuiCrypto.Wire
import PysuiCrypto.Workflow
